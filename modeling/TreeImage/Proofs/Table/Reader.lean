import TreeImage.Proofs.Table.Block
import TreeImage.Table.Records

namespace TreeImage

open Format

namespace RecordTable

variable {table : RecordTable} {count next : Nat} {unread got : Bytes}

theorem collect_of_le (hle : count ≤ unread.length) :
    table.collect count unread next got =
      .ok (got ++ unread.take count, ⟨table, unread.drop count, next⟩) := by
  have hlength : (unread.take count).length = count := List.length_take_of_le hle
  unfold collect
  rw [List.splitAt_eq]
  simp only [hlength, if_true]

theorem collect_of_lt (hlt : unread.length < count) :
    table.collect count unread next got =
      if table.stop < table.start then .error (.trap .difference)
      else if table.size ≤ next then .error (.corruptTable .recordPastEnd)
      else
        table.readBlock next >>= fun (payload, stored) =>
          if addressSpace ≤ next + (2 + stored) then .error (.trap .sum)
          else
            table.collect (count - unread.length) payload (next + (2 + stored))
              (got ++ unread) := by
  have htake : unread.take count = unread := List.take_of_length_le (Nat.le_of_lt hlt)
  rw [collect, List.splitAt_eq]
  simp only [htake, if_neg (Nat.ne_of_lt hlt)]
  cases table.readBlock next with
  | error error => rfl
  | ok block => rfl

theorem table_of_cursor {ref : RecordRef} {cursor : TableCursor}
    (hcursor : table.cursor ref = .ok cursor) : cursor.table = table := by
  obtain ⟨block, -, hcursor⟩ := Except.bind_eq_ok.mp hcursor
  obtain ⟨-, hcursor⟩ := Except.refuse_eq_ok.mp hcursor
  obtain ⟨unread, -, hcursor⟩ := Except.bind_eq_ok.mp hcursor
  obtain ⟨next, -, hcursor⟩ := Except.bind_eq_ok.mp hcursor
  exact (congrArg TableCursor.table (Except.ok.inj hcursor)).symm

theorem table_of_collect {taken : Bytes} {last : TableCursor}
    (hcollect : table.collect count unread next got = .ok (taken, last)) : last.table = table := by
  induction hleft : table.size - next using Nat.strongRecOn
    generalizing count unread next got with
  | _ left ih =>
      by_cases hle : count ≤ unread.length
      · rw [collect_of_le hle] at hcollect
        cases hcollect
        rfl
      · rw [collect_of_lt (by omega)] at hcollect
        split at hcollect
        · cases hcollect
        · split at hcollect
          · cases hcollect
          · obtain ⟨⟨payload, stored⟩, -, hcollect⟩ := Except.bind_eq_ok.mp hcollect
            by_cases hfits : addressSpace ≤ next + (2 + stored)
            · simp only [if_pos hfits] at hcollect
              cases hcollect
            · simp only [if_neg hfits] at hcollect
              exact ih _ (by omega) hcollect rfl

end RecordTable

end TreeImage
