import TreeImage.Text.Path

namespace TreeImage.Text

theorem utf8_eq_flatMap (text : String) :
    utf8 text = text.toList.flatMap String.utf8EncodeChar := by
  rw [utf8, ← String.utf8Encode_toList, List.utf8Encode, List.toList_data_toByteArray]

theorem ofUtf8?_eq_some_iff {bytes : Bytes} {text : String} :
    ofUtf8? bytes = some text ↔ bytes = utf8 text := by
  constructor
  · intro hread
    rw [ofUtf8?, String.fromUTF8?] at hread
    split at hread
    · cases hread
      rfl
    · cases hread
  · rintro rfl
    exact ofUtf8?_utf8 text

theorem length_utf8 (text : String) : (utf8 text).length = text.utf8ByteSize := rfl

theorem encodeChar_append_lt {left right : Char} (hlt : left < right) (after before : Bytes) :
    String.utf8EncodeChar left ++ after < String.utf8EncodeChar right ++ before := by
  have hnumber : left.val.toNat < right.val.toNat := hlt
  have hbound : right.val.toNat < 0x110000 := by
    have hvalid := right.valid
    unfold UInt32.isValidChar Nat.isValidChar at hvalid
    omega
  unfold String.utf8EncodeChar
  generalize left.val.toNat = a at *
  generalize right.val.toNat = b at *
  -- every six bits of a number come out of one more division
  have htwelve : ∀ n, n / 4096 = n / 64 / 64 := fun n => by omega
  have heighteen : ∀ n, n / 262144 = n / 64 / 64 / 64 := fun n => by omega
  dsimp only
  repeat' split
  all_goals
    simp only [List.cons_append, List.nil_append, List.cons_lt_cons_iff,
      UInt8.lt_iff_toNat_lt, ← UInt8.toNat_inj, UInt8.toNat_ofNat', htwelve, heighteen]
    omega

theorem utf8_lt_of_lt {left right : String} (hlt : left < right) : utf8 left < utf8 right := by
  rw [utf8_eq_flatMap, utf8_eq_flatMap]
  have hchars := String.lt_iff.mp hlt
  generalize left.toList = chars at *
  generalize right.toList = others at *
  induction chars generalizing others with
  | nil =>
      cases others with
      | nil => exact absurd hchars (List.lt_irrefl _)
      | cons d others =>
          have hne := String.utf8EncodeChar_ne_nil (c := d)
          rw [List.flatMap_nil, List.flatMap_cons]
          cases hbytes : String.utf8EncodeChar d with
          | nil => exact absurd hbytes hne
          | cons b bytes => exact List.nil_lt_cons _ _
  | cons c chars ih =>
      cases others with
      | nil => exact absurd hchars (List.not_lt_nil _)
      | cons d others =>
          rw [List.flatMap_cons, List.flatMap_cons]
          rcases List.cons_lt_cons_iff.mp hchars with hlt | ⟨rfl, hrest⟩
          · exact encodeChar_append_lt hlt _ _
          · exact List.append_left_lt (ih _ hrest)

theorem splitSlashes_of_not_mem {cs : List Char} (hslash : '/' ∉ cs) : splitSlashes cs = [cs] := by
  induction cs with
  | nil => rfl
  | cons c cs ih =>
      have hc : c ≠ '/' := fun heq => hslash (by simp [heq])
      have hcs : '/' ∉ cs := fun hmem => hslash (by simp [hmem])
      rw [splitSlashes, if_neg hc, ih hcs]

theorem splitSlashes_append_slash (left right : List Char) :
    splitSlashes (left ++ '/' :: right) = splitSlashes left ++ splitSlashes right := by
  induction left with
  | nil => simp [splitSlashes]
  | cons c left ih =>
      by_cases hc : c = '/'
      · simp [splitSlashes, hc, ih]
      · rw [List.cons_append, splitSlashes, if_neg hc, ih, splitSlashes, if_neg hc]
        cases hpieces : splitSlashes left with
        | nil => exact absurd hpieces (splitSlashes_ne_nil left)
        | cons piece pieces => rfl

theorem segments_append_slash (left right : String) :
    segments (left ++ "/" ++ right) = segments left ++ segments right := by
  have hchars : (left ++ "/" ++ right).toList = left.toList ++ '/' :: right.toList := by
    simp
  rw [segments, hchars, splitSlashes_append_slash, List.map_append, List.filter_append]
  rfl

theorem segments_of_name {name : String} (hslash : '/' ∉ name.toList) (hempty : name ≠ "")
    (hdot : name ≠ ".") : segments name = [name] := by
  rw [segments, splitSlashes_of_not_mem hslash]
  simp [hempty, hdot]

/-- An entry's path has the segments of its directory, and its name. -/
theorem segments_joinPath (directory : String) {name : String} (hname : segments name = [name]) :
    segments (joinPath directory name) = segments directory ++ [name] := by
  unfold joinPath
  split
  · rename_i hlast
    obtain ⟨front, hfront⟩ := List.getLast?_eq_some_iff.mp hlast
    have hdirectory : directory = String.ofList front ++ "/" ++ "" := by
      apply String.toList_inj.mp
      simp [hfront]
    have hjoined : directory ++ name = String.ofList front ++ "/" ++ name := by
      rw [hdirectory, String.append_empty]
    rw [hjoined, segments_append_slash, hname, hdirectory, segments_append_slash]
    simp [segments, splitSlashes]
  · rw [segments_append_slash, hname]

theorem slash_not_mem_of_mem_segments {path segment : String} (hmem : segment ∈ segments path) :
    '/' ∉ segment.toList := by
  obtain ⟨hpiece, -⟩ := List.mem_filter.mp hmem
  obtain ⟨piece, hsplit, rfl⟩ := List.mem_map.mp hpiece
  simpa using slash_not_mem_of_mem_splitSlashes hsplit

theorem ne_of_mem_segments {path segment : String} (hmem : segment ∈ segments path) :
    segment ≠ "" ∧ segment ≠ "." := by
  simpa using (List.mem_filter.mp hmem).2

end TreeImage.Text
