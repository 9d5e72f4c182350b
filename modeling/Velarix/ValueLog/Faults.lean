import Velarix.ValueLog

/-! The value log whatever writes fail. `append` drops the result of `write_all`, so a record
whose write is torn is acknowledged all the same, while the file keeps only what was written. -/
namespace Velarix
set_option autoImplicit false
open Io

namespace ValueLog

/-- What a run of appends leaves in the file: each record whole, or cut where the schedule tears
its write; the `i`-th append's `write_all` takes the `i`-th entry of the schedule. -/
def keptBytes : List (Option Nat) → List Record → Bytes
  | _, [] => []
  | faults, r :: rs => r.entry.serialize.take ((tearAt faults r.len).getD r.len) ++ keptBytes faults.tail rs

/-- Whether every append of a run writes its record whole. -/
def writesWhole : List (Option Nat) → List Record → Bool
  | _, [] => true
  | faults, r :: rs => (tearAt faults r.len).isNone && writesWhole faults.tail rs

private theorem length_take_tear (faults : List (Option Nat)) (r : Record) :
    (r.entry.serialize.take ((tearAt faults r.len).getD r.len)).length =
      (tearAt faults r.len).getD r.len := by
  rw [List.length_take, length_serialize_entry]
  cases h : tearAt faults r.len with
  | none => exact Nat.min_self _
  | some n => exact Nat.min_eq_left (Nat.le_of_lt (lt_of_tearAt h))

theorem length_keptBytes_le : ∀ (faults : List (Option Nat)) (rs : List Record),
    (keptBytes faults rs).length ≤ (rs.map Record.len).sum
  | _, [] => by simp [keptBytes]
  | faults, r :: rs => by
    have := length_keptBytes_le faults.tail rs
    have : (tearAt faults r.len).getD r.len ≤ r.len := by
      cases h : tearAt faults r.len
      · rfl
      · exact Nat.le_of_lt (lt_of_tearAt h)
    simp only [keptBytes, List.length_append, length_take_tear, List.map_cons, List.sum_cons]
    omega

theorem length_keptBytes_eq_iff : ∀ (faults : List (Option Nat)) (rs : List Record),
    (keptBytes faults rs).length = (rs.map Record.len).sum ↔ writesWhole faults rs = true
  | _, [] => by simp [keptBytes, writesWhole]
  | faults, r :: rs => by
    have hle := length_keptBytes_le faults.tail rs
    have ih := length_keptBytes_eq_iff faults.tail rs
    simp only [keptBytes, writesWhole, List.length_append, length_take_tear, List.map_cons,
      List.sum_cons, Bool.and_eq_true, Option.isNone_iff_eq_none]
    cases h : tearAt faults r.len with
    | none => simp only [Option.getD_none, Nat.add_left_cancel_iff, ih, true_and]
    | some n =>
      have := lt_of_tearAt h
      simp only [Option.getD_some, reduceCtorEq, false_and, iff_false]
      omega

theorem keptBytes_of_writesWhole : ∀ {faults : List (Option Nat)} {rs : List Record},
    writesWhole faults rs = true → keptBytes faults rs = (rs.map fun r => r.entry.serialize).flatten
  | _, [], _ => rfl
  | faults, r :: rs, h => by
    simp only [writesWhole, Bool.and_eq_true, Option.isNone_iff_eq_none] at h
    rw [keptBytes, h.1, Option.getD_none, List.take_of_length_le (length_serialize_entry r).le,
      keptBytes_of_writesWhole h.2]
    rfl

theorem append_eq (v : ValueLog) (r : Record) (fs : Fs) (faults : List (Option Nat)) :
    v.append r.1 r.2.1 r.2.2.1 r.2.2.2 ⟨fs, faults⟩ =
      .ok (v.size, { v with size := v.size + r.len })
        ⟨fs.append v.path (r.entry.serialize.take ((tearAt faults r.len).getD r.len)), faults.tail⟩ := by
  have hlen : (ValueLogEntry.mk r.1.length r.2.1.length r.1 r.2.1 r.2.2.1 r.2.2.2).serialize.length =
      r.len := length_serialize_entry r
  simp only [append, bind, EStateM.bind, ignoreResult, writeAll, hlen, pure, EStateM.pure]
  cases tearAt faults r.len
  · rw [Option.getD_none, List.take_of_length_le (length_serialize_entry r).le]
    rfl
  · rfl

theorem appendAll_eq : ∀ (v : ValueLog) (rs : List Record) (faults : List (Option Nat)) {fs : Fs}
    {c : Bytes}, fs.files v.path = some c →
    v.appendAll rs ⟨fs, faults⟩ =
      .ok (offsetsFrom v.size rs, { v with size := v.size + (rs.map Record.len).sum })
        ⟨fs.append v.path (keptBytes faults rs), faults.drop rs.length⟩
  | v, [], faults, fs, c, hc => by
    simp [appendAll, keptBytes, Fs.append_nil hc, pure, EStateM.pure, offsetsFrom]
  | v, r :: rs, faults, fs, c, hc => by
    have hc' : (fs.append v.path (r.entry.serialize.take ((tearAt faults r.len).getD r.len))).files
        v.path = some (c ++ r.entry.serialize.take ((tearAt faults r.len).getD r.len)) := by
      simp [Fs.append_files, hc]
    simp only [appendAll, bind, EStateM.bind, append_eq,
      appendAll_eq { v with size := v.size + r.len } rs faults.tail hc', pure, EStateM.pure,
      Fs.append_append, offsetsFrom, keptBytes, List.map_cons, List.sum_cons, Nat.add_assoc,
      List.length_cons, List.drop_succ_cons, List.drop_tail]

/-- From a log whose `size` is its file's length, a run of appends under any schedule returns
the offsets of the run where every write goes through, and leaves `size` on the file's length
exactly when no write of the run is torn. -/
theorem sizeTracksFile_appendAll_iff {v : ValueLog} {fs : Fs} (h : SizeTracksFile v fs)
    (rs : List Record) (faults : List (Option Nat)) :
    ∃ v' w', v.appendAll rs ⟨fs, faults⟩ = .ok (offsetsFrom v.size rs, v') w' ∧
      (SizeTracksFile v' w'.fs ↔ writesWhole faults rs = true) := by
  obtain ⟨c, hc, hl⟩ := h
  refine ⟨_, _, appendAll_eq v rs faults hc, ?_⟩
  rw [← length_keptBytes_eq_iff]
  simp only [SizeTracksFile, Fs.append_files, hc, if_true, Option.getD_some, Option.some.injEq,
    exists_eq_left', List.length_append, hl]
  omega

theorem sizeTracksFile_appendAll_iff_first_write_fails :
    SizeTracksFile ⟨(Path.root.join (.named "db")).join vlogFileName, 0, 0, 0⟩
        (Fs.empty.setFile ((Path.root.join (.named "db")).join vlogFileName) (some [])) ∧
      ∃ v' w', appendAll ⟨(Path.root.join (.named "db")).join vlogFileName, 0, 0, 0⟩ putThenDelete
          ⟨Fs.empty.setFile ((Path.root.join (.named "db")).join vlogFileName) (some []), [some 0]⟩ =
          .ok (offsetsFrom 0 putThenDelete, v') w' ∧
        (SizeTracksFile v' w'.fs ↔ writesWhole [some 0] putThenDelete = true) :=
  have h : SizeTracksFile ⟨(Path.root.join (.named "db")).join vlogFileName, 0, 0, 0⟩
      (Fs.empty.setFile ((Path.root.join (.named "db")).join vlogFileName) (some [])) :=
    ⟨[], by simp, rfl⟩
  ⟨h, sizeTracksFile_appendAll_iff h putThenDelete [some 0]⟩

theorem length_of_splitRecords : ∀ (fuel pos : Nat) (bytes : Bytes)
    (L : List (Nat × Bytes × Bytes × Int × Bool)), splitRecords fuel pos bytes = some L →
    bytes.length = (L.map fun x => 17 + x.2.1.length + x.2.2.1.length).sum
  | 0, _, bytes, L, h => by
    simp only [splitRecords] at h
    split at h <;> cases h
    simp_all
  | fuel + 1, pos, bytes, L, h => by
    simp only [splitRecords, fileRead] at h
    split at h
    · cases h
      simp_all
    split at h
    · cases h
    obtain ⟨L', hL', rfl⟩ := Option.map_eq_some'.mp h
    have ih := length_of_splitRecords fuel _ _ L' hL'
    simp only [List.length_take, List.length_drop, List.map_cons, List.sum_cons] at *
    omega

theorem sum_offsetsFrom_zip (pos : Nat) : ∀ rs : List Record,
    (((offsetsFrom pos rs).zip (rs.map Record.view)).map
      fun x => 17 + x.2.1.length + x.2.2.1.length).sum = (rs.map Record.len).sum
  | [] => rfl
  | r :: rs => by
    simp only [offsetsFrom, List.map_cons, List.zip_cons_cons, List.sum_cons,
      sum_offsetsFrom_zip (pos + r.len) rs]
    rfl

/-- Appends on a fresh log under any schedule, torn writes included: the offsets returned and
`size` count every record, the file holds each record whole or cut where its write tore, and it
splits by the spec's framing into the records appended, at the offsets returned, exactly when no
write of the run is torn. -/
theorem appendAll_frames_iff_none_torn (dir : Path) (fs : Fs) (rs : List Record)
    (faults : List (Option Nat)) (fresh : (fs.files (dir.join vlogFileName)).getD [] = [])
    (hlen : ∀ r ∈ rs, r.1.length < 2 ^ 32 ∧ r.2.1.length < 2 ^ 32) :
    ∃ v w, (ValueLog.new dir >>= fun v => v.appendAll rs) ⟨fs, faults⟩ =
        .ok (offsetsFrom 0 rs, v) w ∧ v.size = (rs.map Record.len).sum ∧
      w.fs.files v.path = some (keptBytes faults rs) ∧
      (splitRecords (keptBytes faults rs).length 0 (keptBytes faults rs) =
          some ((offsetsFrom 0 rs).zip (rs.map Record.view)) ↔ writesWhole faults rs = true) := by
  have hc : ((fs.addDir dir).touch (dir.join vlogFileName)).files (dir.join vlogFileName) =
      some [] := by simp [Fs.touch_files, fresh]
  simp only [bind, EStateM.bind, new_ok, appendAll_eq ⟨dir.join vlogFileName, 0, 0, 0⟩ rs faults hc]
  refine ⟨_, _, rfl, Nat.zero_add _, by simp [Fs.append_files, hc], fun hsplit => ?_, fun hwhole => ?_⟩
  · rw [← length_keptBytes_eq_iff, length_of_splitRecords _ _ _ _ hsplit, sum_offsetsFrom_zip]
  · have hall := keptBytes_of_writesWhole hwhole
    obtain ⟨f, hf⟩ : ∃ f, (keptBytes faults rs).length = f + rs.length :=
      ⟨_, (Nat.sub_add_cancel (hall ▸ length_le_serialized rs)).symm⟩
    rw [hf, hall, splitRecords_serialized _ f 0 hlen]

theorem appendAll_frames_iff_none_torn_put_torn_at_five :
    (Fs.empty.files ((Path.root.join (.named "db")).join vlogFileName)).getD [] = [] ∧
      (∀ r ∈ putThenDelete, r.1.length < 2 ^ 32 ∧ r.2.1.length < 2 ^ 32) ∧
      ∃ v w, (ValueLog.new (Path.root.join (.named "db")) >>= fun v => v.appendAll putThenDelete)
          ⟨Fs.empty, [some 5]⟩ = .ok (offsetsFrom 0 putThenDelete, v) w ∧
        v.size = (putThenDelete.map Record.len).sum ∧
        w.fs.files v.path = some (keptBytes [some 5] putThenDelete) ∧
        (splitRecords (keptBytes [some 5] putThenDelete).length 0 (keptBytes [some 5] putThenDelete) =
            some ((offsetsFrom 0 putThenDelete).zip (putThenDelete.map Record.view)) ↔
          writesWhole [some 5] putThenDelete = true) :=
  have h₁ : (Fs.empty.files ((Path.root.join (.named "db")).join vlogFileName)).getD [] = [] := rfl
  have h₂ : ∀ r ∈ putThenDelete, r.1.length < 2 ^ 32 ∧ r.2.1.length < 2 ^ 32 := by
    simp [putThenDelete]
  ⟨h₁, h₂, appendAll_frames_iff_none_torn _ Fs.empty putThenDelete [some 5] h₁ h₂⟩

end ValueLog
end Velarix
