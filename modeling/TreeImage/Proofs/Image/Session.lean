import TreeImage.Proofs.Image.LinkSubstitution
import TreeImage.Proofs.Image.OpenFileReport

/-!
Sessions with an image: calls on the image and on the files opened from it, in any order.  Whatever
bytes the image is made of, every call comes to an end with a value or a report.
-/

namespace TreeImage

open Format

/-- What can be asked of an image and of the files opened from it, which are numbered in the order
in which they were opened. -/
inductive Call
  | entries (path : String)
  | metadata (path : String)
  | linkMetadata (path : String)
  | linkTarget (path : String)
  | inodeWithNumber (number : UInt32)
  | content (path : String)
  | openFile (path : String)
  | readAt (file offset count : Nat)
  | read (file count : Nat)
  | seek (file : Nat) (anchor : Anchor) (distance : Int)
  deriving DecidableEq, Repr

/-- What a call gives.  A seek is a matter of the stream alone, so its refusal is told apart from
the errors of the image. -/
inductive Answer
  | listing (entries : List ListingEntry)
  | metadata (metadata : Metadata)
  | target (text : String)
  | inode (inode : Inode)
  | bytes (data : Bytes)
  | opened
  | moved (position : Except IoError Nat)
  | noFile

/-- An image and the files opened from it. -/
structure Session where
  image : Image
  files : List OpenFile

namespace Session

def start (image : Image) : Session := ⟨image, []⟩

def onFile (session : Session) (index : Nat)
    (step : OpenFile → Except Error Answer × OpenFile) : Except Error Answer × Session :=
  match session.files[index]? with
  | none => (.ok .noFile, session)
  | some file =>
      match step file with
      | (answer, file) => (answer, ⟨session.image, session.files.set index file⟩)

/-- Answers a call.  A stream read is told with the error of the image that it fails with. -/
def answer (session : Session) : Call → Except Error Answer × Session
  | .entries path => ((session.image.entries path).map .listing, session)
  | .metadata path => ((session.image.metadata path).map .metadata, session)
  | .linkMetadata path => ((session.image.linkMetadata path).map .metadata, session)
  | .linkTarget path => ((session.image.linkTarget path).map .target, session)
  | .inodeWithNumber number => ((session.image.inodeWithNumber number).map .inode, session)
  | .content path => ((session.image.content path).map .bytes, session)
  | .openFile path =>
      match session.image.openFile path with
      | .error error => (.error error, session)
      | .ok file => (.ok .opened, ⟨session.image, session.files ++ [file]⟩)
  | .readAt file offset count => session.onFile file fun file =>
      match (OpenFile.readAt offset count).run file with
      | (result, file) => (result.map .bytes, file)
  | .read file count => session.onFile file fun file =>
      match (OpenFile.advance count).run file with
      | (result, file) => (result.map .bytes, file)
  | .seek file anchor distance => session.onFile file fun file =>
      match (OpenFile.seek anchor distance).run file with
      | (result, file) => (.ok (.moved result), file)

/-- The answers to calls that are made one after the other. -/
def answers (session : Session) : List Call → List (Except Error Answer)
  | [] => []
  | call :: calls =>
      match session.answer call with
      | (answer, session) => answer :: session.answers calls

structure InMemory (session : Session) : Prop where
  image : session.image.InMemory
  files : ∀ file ∈ session.files, file.InMemory ∧ file.image = session.image

/-- Whether an answer is a value or a report, and a refused seek is refused for its target. -/
def IsProper (storageFails : Prop) (answer : Except Error Answer) : Prop :=
  Reports storageFails answer ∧
    ∀ error, answer = .ok (.moved (.error error)) → error.kind = .invalidInput

theorem isProper_map {α : Type} {storageFails : Prop} {result : Except Error α}
    (hreports : Reports storageFails result) {tell : α → Answer}
    (htell : ∀ value position, tell value ≠ .moved position) :
    IsProper storageFails (result.map tell) := by
  refine ⟨hreports.map tell, ?_⟩
  intro error hmoved
  cases result with
  | error _ => cases hmoved
  | ok value => exact absurd (Except.ok.inj hmoved) (htell value _)

variable {session : Session}

theorem inMemory_start {image : Image} (himage : image.InMemory) : (start image).InMemory := by
  refine ⟨himage, ?_⟩
  intro file hmem
  cases hmem

theorem InMemory.onFile (hmemory : session.InMemory) (index : Nat)
    {step : OpenFile → Except Error Answer × OpenFile}
    (hstep : ∀ file, file.InMemory → file.image = session.image →
      IsProper (session.image.region.declared ≠ none) (step file).1 ∧
        (step file).2.InMemory ∧ (step file).2.image = file.image) :
    IsProper (session.image.region.declared ≠ none) (session.onFile index step).1 ∧
      (session.onFile index step).2.InMemory ∧
      (session.onFile index step).2.image = session.image := by
  unfold Session.onFile
  cases hfile : session.files[index]? with
  | none => exact ⟨⟨.ok _, fun error herror => by cases herror⟩, hmemory, rfl⟩
  | some file =>
      obtain ⟨hfileMemory, himage⟩ := hmemory.files file (List.mem_of_getElem? hfile)
      obtain ⟨hproper, hkept, hsame⟩ := hstep file hfileMemory himage
      refine ⟨hproper, ⟨hmemory.image, ?_⟩, rfl⟩
      intro other hmem
      rcases List.mem_or_eq_of_mem_set hmem with hmem | rfl
      · exact hmemory.files other hmem
      · exact ⟨hkept, hsame.trans himage⟩

theorem InMemory.answer (hmemory : session.InMemory) (call : Call) :
    IsProper (session.image.region.declared ≠ none) (session.answer call).1 ∧
      (session.answer call).2.InMemory ∧ (session.answer call).2.image = session.image := by
  have himage := hmemory.image
  cases call with
  | entries path =>
      exact ⟨isProper_map (himage.entries_reports path) fun _ _ => nofun, hmemory, rfl⟩
  | metadata path =>
      exact ⟨isProper_map (himage.metadata_reports path) fun _ _ => nofun, hmemory, rfl⟩
  | linkMetadata path =>
      exact ⟨isProper_map (himage.linkMetadata_reports path) fun _ _ => nofun, hmemory, rfl⟩
  | linkTarget path =>
      exact ⟨isProper_map (himage.linkTarget_reports path) fun _ _ => nofun, hmemory, rfl⟩
  | inodeWithNumber number =>
      exact ⟨isProper_map (himage.inodeWithNumber_reports number) fun _ _ => nofun, hmemory, rfl⟩
  | content path =>
      exact ⟨isProper_map (himage.content_reports path) fun _ _ => nofun, hmemory, rfl⟩
  | openFile path =>
      rw [Session.answer]
      cases hopen : session.image.openFile path with
      | error error =>
          exact ⟨⟨.error (himage.openFile_reports path error hopen), nofun⟩, hmemory, rfl⟩
      | ok file =>
          refine ⟨⟨.ok _, nofun⟩, ⟨himage, ?_⟩, rfl⟩
          intro other hmem
          rcases List.mem_append.mp hmem with hmem | hmem
          · exact hmemory.files other hmem
          · rw [List.mem_singleton.mp hmem]
            exact Image.inMemory_of_openFile himage hopen
  | readAt file offset count =>
      refine hmemory.onFile file fun file hfile hsame => ?_
      obtain ⟨hreports, hkept⟩ := hfile.readAt_reports offset count
      rw [hsame] at hreports
      exact ⟨isProper_map hreports fun _ _ => nofun, hkept⟩
  | read file count =>
      refine hmemory.onFile file fun file hfile hsame => ?_
      obtain ⟨hreports, hkept⟩ := hfile.advance_reports count
      rw [hsame] at hreports
      exact ⟨isProper_map hreports fun _ _ => nofun, hkept⟩
  | seek file anchor distance =>
      refine hmemory.onFile file fun file hfile hsame => ?_
      rcases file.seek_cases anchor distance with ⟨position, hposition, hrun⟩ | ⟨text, hrun⟩
      · rw [hrun]
        exact ⟨⟨.ok _, nofun⟩, ⟨hfile.image, hfile.fragment, hfile.cache, hposition⟩, rfl⟩
      · rw [hrun]
        refine ⟨⟨.ok _, ?_⟩, hfile, rfl⟩
        intro error herror
        cases herror
        rfl

theorem InMemory.answers (hmemory : session.InMemory) (calls : List Call) :
    ∀ answer ∈ session.answers calls,
      IsProper (session.image.region.declared ≠ none) answer := by
  induction calls generalizing session with
  | nil => nofun
  | cons call calls ih =>
      obtain ⟨hproper, hkept, hsame⟩ := hmemory.answer call
      intro answer hmem
      rcases List.mem_cons.mp hmem with rfl | hmem
      · exact hproper
      · rw [← hsame]
        exact ih hkept answer hmem

/-- Whatever bytes lie in memory, opening an image anywhere among them fails with reports only, and
so do all calls on an image that is opened, in any order.  The storage is blamed only if the window
has a declared size, and a seek is refused only for its target.  A codec may be any that puts down
its failures to a table. -/
theorem answers_of_bytes {codecs : Codecs} (hcodecs : codecs.All Codec.IsWary) (content : Bytes)
    (hcontent : content.length < 2 ^ 63) (start size : Nat)
    (hsize : size = 0 ∨ start + size < 2 ^ 64) :
    let region := Region.ofStorage (Storage.ofBytes content) start size
    Reports (size ≠ 0) (Image.ofRegion codecs region) ∧
      ∀ image, Image.ofRegion codecs region = .ok image →
        ∀ calls, ∀ answer ∈ (Session.start image).answers calls,
          Reports (size ≠ 0) answer ∧
            ∀ error, answer = .ok (.moved (.error error)) → error.kind = .invalidInput := by
  intro region
  have hstorage : (Storage.ofBytes content).InMemory :=
    Storage.inMemory_ofBytes (by unfold addressSpace; omega)
  have hmemory : region.InMemory := by
    apply Region.inMemory_ofStorage hstorage
    unfold addressSpace
    exact hsize
  have hdeclared : (region.declared ≠ none) = (size ≠ 0) :=
    propext (Region.declared_ofStorage _ start size)
  rw [← hdeclared]
  refine ⟨Image.ofRegion_reports hcodecs hmemory, ?_⟩
  intro image hopen calls
  obtain ⟨himage, hregion⟩ := Image.inMemory_of_ofRegion hcodecs hmemory hopen
  rw [← hregion]
  exact (inMemory_start himage).answers calls

/-- A sample image is opened, and a session with it is answered with values and reports. -/
theorem answers_of_linkedImageBytes :
    ∃ image, Image.ofRegion Codecs.machine Image.linkedRegion = .ok image ∧
      ∀ answer ∈ (start image).answers
        [.openFile "d/up/f", .read 0 1, .seek 0 .current (-2), .readAt 0 1 9, .content "d"],
        Reports ((0 : Nat) ≠ 0) answer := by
  obtain ⟨image, hopen, -⟩ := Image.exists_ofRegion_linkedRegion
  refine ⟨image, hopen, fun answer hmem => ?_⟩
  have hlength : Image.linkedImageBytes.length < 2 ^ 63 := by decide +kernel
  have hwary : Codecs.machine.All Codec.IsWary := Codecs.all_isWary_ofLibraries _ _
  exact ((answers_of_bytes hwary Image.linkedImageBytes hlength 0 0 (Or.inl rfl)).2 image hopen
    _ answer hmem).1

end Session

end TreeImage
