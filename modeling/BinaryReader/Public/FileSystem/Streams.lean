import BinaryReader.Public.FileSystem.Breakdown
import BinaryReader.Public.FileSystem.Stdio

/-!
# Streams of a file

What the C library documents about the streams of a regular file.  No call but a
clearing one resets the error indicator of a stream, and a stream whose indicator
is set may stand anywhere.  So a `FileFileReader` breaks down at worst.
-/

namespace BinaryReader.Stdio

variable {φ : Type}

/-- The documented behaviour of streams without an error indicator, each of which `stands` at
some place of the file. -/
structure Streams (stdio : Stdio φ) (contents : List UInt8) (stands : φ → Nat → Prop) : Prop where
  ftello : ∀ {fs place}, stands fs place → stdio.ftello fs = place
  fread : ∀ {fs place count bytes next}, stands fs place →
    stdio.fread fs count = (bytes, next) → stdio.ferror next = false →
    bytes = (contents.drop place).take count ∧ stands next (place + bytes.length)
  fread_ferror : ∀ {fs}, stdio.ferror fs = true → ∀ count,
    stdio.ferror (stdio.fread fs count).2 = true
  fseeko_seekSet : ∀ {fs place offset failed next}, stands fs place →
    stdio.fseeko fs offset .seekSet = (failed, next) → stdio.ferror next = false →
    stands next (if failed then place else offset)
  fseeko_seekEnd : ∀ {fs place next}, stands fs place →
    stdio.fseeko fs 0 .seekEnd = (false, next) → stdio.ferror next = false →
    stands next contents.length
  fseeko_ferror : ∀ {fs}, stdio.ferror fs = true → ∀ offset whence,
    stdio.ferror (stdio.fseeko fs offset whence).2 = true

/-- No read and no seek inside the file fails. -/
structure Quiet (stdio : Stdio φ) (contents : List UInt8) (stands : φ → Nat → Prop) : Prop where
  fread : ∀ {fs place}, stands fs place → ∀ count,
    stdio.ferror (stdio.fread fs count).2 = false
  fseeko : ∀ {fs place}, stands fs place → ∀ offset ≤ contents.length,
    (stdio.fseeko fs offset .seekSet).1 = false ∧
      stdio.ferror (stdio.fseeko fs offset .seekSet).2 = false

def Opens (stdio : Stdio φ) (path : String) (stands : φ → Nat → Prop) : Prop :=
  ∃ fs next, stdio.fopen path = some fs ∧ stands fs 0 ∧
    stdio.fseeko fs 0 .seekEnd = (false, next) ∧ stdio.ferror next = false

section Places

variable {stdio : Stdio φ} {contents : List UInt8} {stands : φ → Nat → Prop}
  (streams : stdio.Streams contents stands)

include streams

theorem Streams.reads {fs next : φ} {place count : Nat} {bytes : List UInt8}
    (known : stdio.ferror fs = true ∨ stands fs place)
    (read : stdio.fread fs count = (bytes, next)) (clear : stdio.ferror next = false) :
    bytes = (contents.drop place).take count ∧ stands next (place + bytes.length) := by
  rcases known with indicated | standing
  · have kept := streams.fread_ferror indicated count
    rw [read, clear] at kept
    cases kept
  · exact streams.fread standing read clear

theorem Streams.seeks {fs next : φ} {place offset : Nat} {failed : Bool}
    (known : stdio.ferror fs = true ∨ stands fs place)
    (sought : stdio.fseeko fs offset .seekSet = (failed, next)) :
    stdio.ferror next = true ∨ stands next (if failed then place else offset) := by
  rcases known with indicated | standing
  · have kept := streams.fseeko_ferror indicated offset .seekSet
    rw [sought] at kept
    exact Or.inl kept
  · rcases clear : stdio.ferror next with _ | _
    · exact Or.inr (streams.fseeko_seekSet standing sought clear)
    · exact Or.inl rfl

theorem Streams.opened {path : String} (opens : stdio.Opens path stands) :
    ∃ (file : FileFileReader φ) (place : Nat), stdio.fStreamFileSystem.openFile path = some file ∧
      file.size = contents.length ∧ place ≤ contents.length ∧
      (stdio.ferror file.fs = true ∨ stands file.fs place) := by
  obtain ⟨fs, atEnd, opened, standing, sought, clear⟩ := opens
  have standsAtEnd := streams.fseeko_seekEnd standing sought clear
  rcases returned : stdio.fseeko atEnd 0 .seekSet with ⟨failed, start⟩
  refine ⟨{ path, fs := start, size := contents.length },
    if failed then contents.length else 0, ?_, rfl, ?_, ?_⟩
  · simp only [fStreamFileSystem, opened, Option.map_some, getSize, sought, returned,
      streams.ftello standsAtEnd]
  · split
    · exact le_rfl
    · exact Nat.zero_le _
  · exact streams.seeks (Or.inr standsAtEnd) returned

end Places

/-- A reader with the place of its stream, which is any place behind an error. -/
structure Traced (stdio : Stdio φ) (contents : List UInt8) (stands : φ → Nat → Prop) where
  file : FileFileReader φ
  place : Nat
  size_eq : file.size = contents.length
  place_le : place ≤ contents.length
  known : stdio.ferror file.fs = true ∨ stands file.fs place

section Traced

variable {stdio : Stdio φ} {contents : List UInt8} {stands : φ → Nat → Prop}
  (streams : stdio.Streams contents stands)

def tracedReader : FileReader (Traced stdio contents stands) where
  position := Traced.place
  size := fun self => some self.file.size
  read := fun self size =>
    let fs := (stdio.fread self.file.fs size).2
    if indicated : stdio.ferror fs = true then
      (.error (stdio.ioError self.file fs),
        { file := { self.file with fs }, place := contents.length, size_eq := self.size_eq
          place_le := le_rfl, known := Or.inl indicated })
    else
      (.ok ((contents.drop self.place).take size),
        { file := { self.file with fs }
          place := self.place + ((contents.drop self.place).take size).length
          size_eq := self.size_eq
          place_le := by
            have bound := self.place_le
            rw [List.length_take, List.length_drop]
            omega
          known := by
            obtain ⟨bytesEq, standing⟩ := streams.reads self.known rfl
              (Bool.eq_false_of_not_eq_true indicated)
            rw [bytesEq] at standing
            exact Or.inr standing })
  seek := fun self position =>
    let position := min position self.file.size
    let sought := stdio.fseeko self.file.fs position .seekSet
    (if sought.1 then .error (stdio.ioError self.file sought.2) else .ok position,
      { file := { self.file with fs := sought.2 }
        place := if sought.1 then self.place else position
        size_eq := self.size_eq
        place_le := by
          have sized := self.size_eq
          split
          · exact self.place_le
          · exact (Nat.min_le_right _ _).trans_eq sized
        known := streams.seeks self.known rfl })

theorem tracedReader_embeds : (tracedReader streams).Embeds stdio.fileFileReader Traced.file where
  size := fun _ => rfl
  read := by
    intro state count
    simp only [tracedReader, fileFileReader]
    by_cases indicated : stdio.ferror (stdio.fread state.file.fs count).2 = true
    · rw [if_pos indicated, dif_pos indicated]
      rfl
    · obtain ⟨bytesEq, -⟩ := streams.reads state.known rfl
        (Bool.eq_false_of_not_eq_true indicated)
      rw [if_neg indicated, dif_neg indicated]
      exact Prod.ext (congrArg Except.ok bytesEq) rfl
  seek := by
    intro state position
    simp only [tracedReader, fileFileReader]
    split <;> rfl

theorem tracedReader_breaksDown : (tracedReader streams).BreaksDown contents
    (fun state => stdio.ferror state.file.fs = true) where
  fallible :=
    { position_le := Traced.place_le
      read_ok := by
        intro state size bytes next returned
        simp only [tracedReader] at returned
        split at returned
        · cases returned
        · cases returned
          have bound := state.place_le
          refine ⟨List.length_take_le _ _, List.take_prefix _ _, ?_, rfl⟩
          intro empty
          have length := congrArg List.length empty
          rw [List.length_take, List.length_drop, List.length_nil] at length
          change size = 0 ∨ state.place = contents.length
          omega
      read_error := by
        intro state size info next failed
        simp only [tracedReader] at failed
        split at failed
        · cases failed
          exact state.place_le
        · cases failed
      seek_ok := by
        intro state position reached next sought
        simp only [tracedReader] at sought
        split at sought
        · cases sought
        · cases sought
          have reachedEq := congrArg (min position) state.size_eq
          exact ⟨reachedEq, reachedEq⟩
      seek_error := by
        intro state position info next sought
        simp only [tracedReader] at sought
        split at sought
        · cases sought
          rfl
        · cases sought }
  read_breaks := by
    intro state size info next failed
    simp only [tracedReader] at failed
    split at failed
    next indicated =>
      cases failed
      exact indicated
    · cases failed
  read_broken := by
    intro state size bytes next broken returned
    simp only [tracedReader] at returned
    split at returned
    · cases returned
    next clear => exact clear (streams.fread_ferror broken size)

end Traced

variable {stdio : Stdio φ} {contents : List UInt8} {stands : φ → Nat → Prop}

/-- The default file system provides every file that it can open and measure. -/
theorem Streams.provides (streams : stdio.Streams contents stands) {path : String}
    (opens : stdio.Opens path stands) :
    stdio.fStreamFileSystem.Provides stdio.fileFileReader path contents := by
  obtain ⟨file, place, opened, sized, inside, known⟩ := streams.opened opens
  exact ⟨_, tracedReader streams, Traced.file, _, ⟨file, place, sized, inside, known⟩,
    tracedReader_embeds streams, tracedReader_breaksDown streams, opened,
    fun state => Or.inr (congrArg some state.size_eq)⟩

/-- The calls on files that stand inside the file keep the contract if none fails. -/
theorem Streams.contractOn (streams : stdio.Streams contents stands)
    (quiet : stdio.Quiet contents stands) :
    stdio.fileFileReader.ContractOn contents fun file =>
      file.size = contents.length ∧ ∃ place ≤ contents.length, stands file.fs place where
  position_le := by
    rintro file ⟨-, place, inside, standing⟩
    rwa [← streams.ftello standing] at inside
  read := by
    rintro file ⟨sized, place, inside, standing⟩ size
    have clear := quiet.fread standing size
    rcases read : stdio.fread file.fs size with ⟨bytes, fs⟩
    rw [read] at clear
    obtain ⟨rfl, next⟩ := streams.fread standing read clear
    have position : stdio.fileFileReader.position file = place := streams.ftello standing
    have moved : place + ((contents.drop place).take size).length ≤ contents.length := by
      rw [List.length_take, List.length_drop]
      omega
    refine ⟨(contents.drop place).take size, { file with fs }, ?_, List.length_take_le _ _, ?_, ?_,
      ?_, sized, _, moved, next⟩
    · change stdio.ferror fs = false at clear
      simp only [fileFileReader, read, clear, Bool.false_eq_true, if_false]
    · rw [position]
      exact List.take_prefix _ _
    · intro empty
      have length := congrArg List.length empty
      rw [List.length_take, List.length_drop, List.length_nil] at length
      omega
    · rw [position]
      exact streams.ftello next
  seek := by
    rintro file ⟨sized, place, inside, standing⟩ position
    obtain ⟨succeeded, clear⟩ := quiet.fseeko standing (min position contents.length)
      (Nat.min_le_right _ _)
    rcases sought : stdio.fseeko file.fs (min position contents.length) .seekSet with ⟨failed, fs⟩
    rw [sought] at succeeded clear
    cases succeeded
    have next := streams.fseeko_seekSet standing sought clear
    refine ⟨{ file with fs }, ?_, streams.ftello next, sized, _, Nat.min_le_right _ _, next⟩
    simp only [fileFileReader, sized, sought, Bool.false_eq_true, if_false]

theorem Streams.serves (streams : stdio.Streams contents stands)
    (quiet : stdio.Quiet contents stands) {path : String} (opens : stdio.Opens path stands) :
    stdio.fStreamFileSystem.Serves stdio.fileFileReader path contents := by
  obtain ⟨fs, atEnd, opened, standing, sought, clear⟩ := opens
  have standsAtEnd := streams.fseeko_seekEnd standing sought clear
  obtain ⟨succeeded, started⟩ := quiet.fseeko standsAtEnd 0 (Nat.zero_le _)
  rcases returned : stdio.fseeko atEnd 0 .seekSet with ⟨failed, start⟩
  rw [returned] at succeeded started
  cases succeeded
  have standsAtStart := streams.fseeko_seekSet standsAtEnd returned started
  refine ⟨{ path, fs := start, size := contents.length }, _, ?_, ⟨rfl, 0, Nat.zero_le _,
    standsAtStart⟩, streams.contractOn quiet, fun file inside => Or.inr (congrArg some inside.1)⟩
  simp only [fStreamFileSystem, opened, Option.map_some, getSize, sought, returned,
    streams.ftello standsAtEnd]

end BinaryReader.Stdio

namespace BinaryReader

/-- A stream of a file that can be read some more times. -/
structure WornStream where
  contents : List UInt8
  place : Nat := 0
  reads : Nat
  indicated : Bool := false

def wornDisk (files : List (String × List UInt8 × Nat)) : Stdio WornStream where
  fopen := fun path => (files.lookup path).map fun (contents, reads) => { contents, reads }
  fread := fun fs count =>
    if fs.reads = 0 then ([], { fs with indicated := true })
    else
      let bytes := (fs.contents.drop fs.place).take count
      (bytes, { fs with place := fs.place + bytes.length, reads := fs.reads - 1 })
  ferror := WornStream.indicated
  errno := fun _ => 5
  ftello := WornStream.place
  fseeko := fun fs offset whence =>
    match whence with
    | .seekSet => (false, { fs with place := offset })
    | .seekEnd => (false, { fs with place := fs.contents.length + offset })

def WornStream.Stands (contents : List UInt8) (fs : WornStream) (place : Nat) : Prop :=
  fs.contents = contents ∧ fs.place = place

theorem wornDisk_streams (files : List (String × List UInt8 × Nat)) (contents : List UInt8) :
    (wornDisk files).Streams contents (WornStream.Stands contents) where
  ftello := And.right
  fread := by
    rintro fs place count bytes next ⟨rfl, rfl⟩ read clear
    simp only [wornDisk] at read
    split at read
    · cases read
      cases clear
    · cases read
      exact ⟨rfl, rfl, rfl⟩
  fread_ferror := by
    intro fs indicated count
    simp only [wornDisk]
    split
    · rfl
    · exact indicated
  fseeko_seekSet := by
    rintro fs place offset failed next ⟨rfl, rfl⟩ sought -
    cases sought
    exact ⟨rfl, rfl⟩
  fseeko_seekEnd := by
    rintro fs place next ⟨rfl, rfl⟩ sought -
    cases sought
    exact ⟨rfl, rfl⟩
  fseeko_ferror := by
    intro fs indicated offset whence
    cases whence <;> exact indicated

theorem wornDisk_opens {files : List (String × List UInt8 × Nat)} {path : String}
    {contents : List UInt8} {reads : Nat} (listed : files.lookup path = some (contents, reads)) :
    (wornDisk files).Opens path (WornStream.Stands contents) :=
  ⟨_, _, congrArg (Option.map _) listed, ⟨rfl, rfl⟩, rfl, rfl⟩

theorem wornDisk_provides {files : List (String × List UInt8 × Nat)} {path : String}
    {contents : List UInt8} {reads : Nat} (listed : files.lookup path = some (contents, reads)) :
    (wornDisk files).fStreamFileSystem.Provides (wornDisk files).fileFileReader path contents :=
  (wornDisk_streams files contents).provides (wornDisk_opens listed)

end BinaryReader
