import BinaryReader.Parser.Visiting.Types

/-!
# What a returning visitor has walked

The converse of the lemmas on what the visitor builds: where it returns, every
child it looked at was there and every number could be converted.
-/

namespace BinaryReader.Visitor

variable {self : Visitor} {known : List String}

theorem walkable_of_visitLastOption {set : OptionSet} {ctx : Option OptionContext}
    {result : OptionSet × Visitor} (visited : self.visitLastOption set ctx = .ok result) :
    Present ctx OptionContext.Walkable := by
  obtain ⟨option, present, optionVisited⟩ := Checked.bind_eq_ok_iff.mp visited
  obtain ⟨_, optionEq, -⟩ := Checked.bind_eq_ok_iff.mp optionVisited
  obtain ⟨_, -, exprEq⟩ := Checked.bind_eq_ok_iff.mp optionEq
  obtain ⟨expr, found, -⟩ := Checked.bind_eq_ok_iff.mp exprEq
  exact ⟨option, deref_eq_ok_iff.mp present,
    Option.isSome_iff_exists.mpr ⟨expr, deref_eq_ok_iff.mp found⟩⟩

theorem walkable_of_visitOptionList {list : OptionListContext} {result : OptionSet × Visitor}
    (visited : self.visitOptionList list = .ok result) : list.Walkable := by
  induction list generalizing result with
  | first option => exact walkable_of_visitLastOption visited
  | more list option inductionHypothesis =>
      obtain ⟨_, listVisited, lastVisited⟩ := Checked.bind_eq_ok_iff.mp visited
      exact ⟨inductionHypothesis listVisited, walkable_of_visitLastOption lastVisited⟩

theorem walkable_of_visitCompleteType (knows : self.Knows known) {ctx : CompleteTypeContext}
    {result : Option TypeInfoBase × Visitor} (visited : self.visitCompleteType ctx = .ok result) :
    ctx.Walkable known := by
  obtain ⟨identifier, present, typeVisited⟩ := Checked.bind_eq_ok_iff.mp visited
  have identifierEq := deref_eq_ok_iff.mp present
  refine ⟨Option.isSome_iff_exists.mpr ⟨identifier, identifierEq⟩, ?_⟩
  intro isKnown list listEq
  rw [identifierEq, tokenText, Option.map_some, Option.getD_some] at isKnown
  obtain ⟨type, found⟩ := Option.isSome_iff_exists.mp ((knows _).mp isKnown)
  simp only [found] at typeVisited
  obtain ⟨_, optionsVisited, -⟩ := Checked.bind_eq_ok_iff.mp typeVisited
  rw [listEq] at optionsVisited
  obtain ⟨_, listVisited, -⟩ := Checked.bind_eq_ok_iff.mp optionsVisited
  exact walkable_of_visitOptionList listVisited

theorem walkable_of_visitExpressions {expression : Option ExpressionContext}
    {result : Option Literal} (visited : expression.mapM self.visitExpression = .ok result) :
    ∀ node ∈ expression, node.Walkable := by
  rintro node rfl
  obtain ⟨literal, nodeVisited, -⟩ := Checked.bind_eq_ok_iff.mp
    (show self.visitExpression node >>= (fun literal => pure (some literal)) = .ok result by
      rw [← visited, Option.mapM_some]
      rfl)
  obtain ⟨number, present, converted⟩ := Checked.bind_eq_ok_iff.mp nodeVisited
  obtain ⟨value, valueEq, -⟩ := Checked.bind_eq_ok_iff.mp converted
  exact ⟨number, deref_eq_ok_iff.mp present, value, valueEq⟩

theorem walkable_of_visitTypeMember (knows : self.Knows known) {ctx : TypeMemberContext}
    {result : FieldInfo × Visitor} (visited : self.visitTypeMember ctx = .ok result) :
    ctx.Walkable known := by
  obtain ⟨field, present, fieldVisited⟩ := Checked.bind_eq_ok_iff.mp visited
  obtain ⟨identifier, named, rest⟩ := Checked.bind_eq_ok_iff.mp fieldVisited
  obtain ⟨type, typed, typeRest⟩ := Checked.bind_eq_ok_iff.mp rest
  obtain ⟨⟨_, next⟩, typeVisited, expressionRest⟩ := Checked.bind_eq_ok_iff.mp typeRest
  obtain ⟨_, expressionVisited, -⟩ := Checked.bind_eq_ok_iff.mp expressionRest
  exact ⟨field, deref_eq_ok_iff.mp present,
    Option.isSome_iff_exists.mpr ⟨identifier, deref_eq_ok_iff.mp named⟩,
    ⟨type, deref_eq_ok_iff.mp typed, walkable_of_visitCompleteType knows typeVisited⟩,
    walkable_of_visitExpressions expressionVisited⟩

theorem walkable_of_visitMembers (kept : self.Kept) (knows : self.Knows known)
    {identifier : Token} {members : List TypeMemberContext} {earlier : List FieldInfo}
    (statements : self.stack.statements = earlier.map .field) {result : Visitor}
    (visited : visitMembers (some identifier) members self = .ok result) :
    ∀ member ∈ members, member.Walkable known := by
  induction members generalizing self earlier with
  | nil => exact nofun
  | cons member members inductionHypothesis =>
      obtain ⟨_, memberVisited, rest⟩ := Checked.bind_eq_ok_iff.mp visited
      have first := walkable_of_visitTypeMember knows memberVisited
      obtain ⟨field, infos, fieldVisited, -, -⟩ := visitTypeMember_spec kept knows first
      cases memberVisited.symm.trans fieldVisited
      obtain ⟨_, checked, continued⟩ := Checked.bind_eq_ok_iff.mp rest
      obtain ⟨checks, checkedEq, -⟩ :=
        (self.report infos).checkMember_spec statements identifier field member.start
      cases checked.symm.trans checkedEq
      refine List.forall_mem_cons.mpr ⟨first, ?_⟩
      refine inductionHypothesis ?_ ?_
        (show _ = (earlier ++ [field]).map Statement.field from ?_) continued
      · exact kept
      · exact knows
      · change self.stack.statements ++ [.field field] = _
        rw [statements, List.map_append, List.map_singleton]

theorem walkable_of_visitGlobalDefinition (kept : self.Kept) (knows : self.Knows known)
    (empty : self.stack.statements = []) {ctx : GlobalDefinitionContext}
    {result : TypeDefinition × Visitor} (visited : self.visitGlobalDefinition ctx = .ok result) :
    ctx.Walkable known := by
  obtain ⟨type, present, typeVisited⟩ := Checked.bind_eq_ok_iff.mp visited
  obtain ⟨_, membersVisited, rest⟩ := Checked.bind_eq_ok_iff.mp typeVisited
  obtain ⟨identifier, named, -⟩ := Checked.bind_eq_ok_iff.mp rest
  have identifierEq := deref_eq_ok_iff.mp named
  rw [identifierEq] at membersVisited
  have noStatements : self.stack.statements = List.map Statement.field [] := empty
  exact ⟨type, deref_eq_ok_iff.mp present,
    Option.isSome_iff_exists.mpr ⟨identifier, identifierEq⟩,
    walkable_of_visitMembers kept knows noStatements membersVisited⟩

theorem walkableAll_of_visitDefinitions (kept : self.Kept) (knows : self.Knows known)
    (empty : self.stack.statements = []) {definitions : List GlobalDefinitionContext}
    {result : Visitor} (visited : visitDefinitions definitions self = .ok result) :
    GlobalDefinitionContext.WalkableAll known definitions := by
  induction definitions generalizing self known with
  | nil => trivial
  | cons definition definitions inductionHypothesis =>
      obtain ⟨_, definitionVisited, rest⟩ := Checked.bind_eq_ok_iff.mp visited
      have first := walkable_of_visitGlobalDefinition kept knows empty definitionVisited
      obtain ⟨type, infos, typeVisited, built, -⟩ :=
        visitGlobalDefinition_spec kept knows empty first
      cases definitionVisited.symm.trans typeVisited
      obtain ⟨checks, checked, -⟩ := (self.report infos).checkType_spec type definition.start
      rw [report_report] at checked
      dsimp only at rest
      rw [checked] at rest
      exact ⟨first, inductionHypothesis (kept.define built (infos ++ checks))
        (knows.define built (infos ++ checks)) empty rest⟩

/-- The visitor returns exactly from the trees it can walk. -/
theorem visitMain_returns_iff {path : String} {defs : List TypeDefinition}
    {errors : ErrorCollection} {main : MainContext} :
    (∃ result, visitMain { path, defs, errors } main = .ok result) ↔ main.Walkable := by
  have kept : Kept { path, defs, errors } := nofun
  constructor
  · rintro ⟨result, visited⟩
    exact walkableAll_of_visitDefinitions kept (knows_builtIn path defs errors) rfl visited
  · intro walkable
    obtain ⟨types, infos, visited, -, -⟩ :=
      visitDefinitions_spec kept (knows_builtIn path defs errors) rfl walkable
    exact ⟨_, visited⟩

end BinaryReader.Visitor
