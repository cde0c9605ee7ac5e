import TreeImage.Bytes.Word

namespace TreeImage.Text

def utf8 (text : String) : Bytes := text.toByteArray.data.toList

def ofUtf8? (bytes : Bytes) : Option String := String.fromUTF8? ⟨bytes.toArray⟩

@[simp] theorem ofUtf8?_utf8 (text : String) : ofUtf8? (utf8 text) = some text := by
  have hbytes : (⟨(utf8 text).toArray⟩ : ByteArray) = text.toByteArray := by
    simp [utf8]
  rw [ofUtf8?, hbytes, String.fromUTF8?, dif_pos text.isValidUTF8]
  rfl

/-- The pieces between the slashes of a text, empty ones included. -/
def splitSlashes : List Char → List (List Char)
  | [] => [[]]
  | c :: cs =>
      if c = '/' then [] :: splitSlashes cs
      else
        match splitSlashes cs with
        | [] => [[c]]
        | piece :: pieces => (c :: piece) :: pieces

def segments (path : String) : List String :=
  ((splitSlashes path.toList).map String.ofList).filter fun segment =>
    segment ≠ "" ∧ segment ≠ "."

/-- The path of the entry `name` of the directory `directory`. -/
def joinPath (directory name : String) : String :=
  if directory.toList.getLast? = some '/' then directory ++ name
  else directory ++ "/" ++ name

theorem splitSlashes_ne_nil (cs : List Char) : splitSlashes cs ≠ [] := by
  cases cs with
  | nil => simp [splitSlashes]
  | cons c cs =>
      rw [splitSlashes]
      split
      · simp
      · split <;> simp

theorem slash_not_mem_of_mem_splitSlashes {cs piece : List Char}
    (hmem : piece ∈ splitSlashes cs) : '/' ∉ piece := by
  induction cs generalizing piece with
  | nil => simp_all [splitSlashes]
  | cons c cs ih =>
      rw [splitSlashes] at hmem
      split at hmem
      · rcases List.mem_cons.mp hmem with rfl | hrest
        · simp
        · exact ih hrest
      · rename_i hc
        split at hmem
        · rw [List.mem_singleton.mp hmem]
          simpa using fun heq => hc heq.symm
        · rename_i first rest heq
          rcases List.mem_cons.mp hmem with rfl | hrest
          · have hfirst : '/' ∉ first := ih (by simp [heq])
            simpa [hfirst] using fun heq => hc heq.symm
          · exact ih (by simp [heq, hrest])

end TreeImage.Text
