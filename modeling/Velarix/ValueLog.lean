import Velarix.SSTable.Read

/-! The value log: `ValueLogEntry::serialize`, `ValueLog::new`, `append`, `clear_all` and the
cursor setters. The file node (crate::fs) is not in the source; its writes are `Io.writeAll`. -/
namespace Velarix
open Io

/-- `DateTime<Utc>` as the log stores it, `timestamp_millis()`: an `i64`. -/
structure CreatedAt where
  millis : Int
  lo : -2 ^ 63 ≤ millis
  hi : millis < 2 ^ 63

structure ValueLogEntry where
  ksize : Nat
  vsize : Nat
  key : Bytes
  value : Bytes
  createdAt : CreatedAt
  isTombstone : Bool

namespace ValueLogEntry

/-- `serialize`: `key_len:u32 ‖ value_len:u32 ‖ created_at:i64 ‖ is_tombstone:u8 ‖ key ‖ value`.
The module doc draws the key and value before the timestamp; this is the order written. -/
def serialize (e : ValueLogEntry) : Bytes :=
  leBytes 4 (e.key.length % 2 ^ 32) ++ leBytes 4 (e.value.length % 2 ^ 32) ++
    i64Bytes e.createdAt.millis ++ [if e.isTombstone then 1 else 0] ++ e.key ++ e.value

@[simp] theorem length_serialize (e : ValueLogEntry) :
    e.serialize.length = 17 + e.key.length + e.value.length := by
  simp [serialize, i64Bytes]
  omega

end ValueLogEntry

/-- Modelled from the spec: `VLOG_FILE_NAME`, the file `D/VLOG` of the on-disk layout. -/
def vlogFileName : Segment := .named "VLOG"

/-- The log's cursors and size; `content` is the file at `path`. -/
structure ValueLog where
  path : Path
  headOffset : Nat
  tailOffset : Nat
  size : Nat

namespace ValueLog

/-- `ValueLog::new`: the node opens, or creates, `dir/VLOG`; the cursors and size start at 0. -/
def new (dir : Path) : Io ValueLog := do
  createDirAll dir
  openAppendCreate (dir.join vlogFileName)
  pure ⟨dir.join vlogFileName, 0, 0, 0⟩

/-- `append`: the record goes where the file ends; the offset returned is `size` before it. -/
def append (v : ValueLog) (key value : Bytes) (createdAt : CreatedAt) (isTombstone : Bool) :
    Io (Nat × ValueLog) := do
  let vLogEntry := ValueLogEntry.mk key.length value.length key value createdAt isTombstone
  let serializedData := vLogEntry.serialize
  let lastOffset := v.size
  ignoreResult (writeAll v.path serializedData)
  pure (lastOffset, { v with size := v.size + serializedData.length })

/-- `clear_all`: when the file's metadata can be read, the node's `remove_dir_all` runs and an
error is only logged; both cursors are rewound and `size` is kept. The node is crate::fs, which
is not in the source: that `remove_dir_all` removes the log's file is an assumption of the model,
taken from "CAUTION: This deletes the value log file". -/
def clearAll (v : ValueLog) : Io ValueLog := do
  if ← fileExists v.path then ignoreResult (removeFile v.path)
  pure { v with tailOffset := 0, headOffset := 0 }

def setHead (v : ValueLog) (head : Nat) : ValueLog := { v with headOffset := head }

def setTail (v : ValueLog) (tail : Nat) : ValueLog := { v with tailOffset := tail }

/-- One record to append: key, value, timestamp and tombstone flag. -/
abbrev Record := Bytes × Bytes × CreatedAt × Bool

def Record.entry (r : Record) : ValueLogEntry := ⟨r.1.length, r.2.1.length, r.1, r.2.1, r.2.2.1, r.2.2.2⟩

/-- A run of `append` calls, with the offsets they return. -/
def appendAll : ValueLog → List Record → Io (List Nat × ValueLog)
  | v, [] => pure ([], v)
  | v, r :: rs => do
    let (o, v) ← v.append r.1 r.2.1 r.2.2.1 r.2.2.2
    let (os, v) ← appendAll v rs
    pure (o :: os, v)

/-- A record's length in the file. -/
def Record.len (r : Record) : Nat := 17 + r.1.length + r.2.1.length

/-- What the spec's framing reads back for a record: key, value, milliseconds, flag. -/
def Record.view (r : Record) : Bytes × Bytes × Int × Bool := (r.1, r.2.1, r.2.2.1.millis, r.2.2.2)

@[simp] theorem length_serialize_entry (r : Record) : r.entry.serialize.length = r.len := by
  simp [Record.entry, Record.len]

theorem new_ok (dir : Path) (fs : Fs) (faults : List (Option Nat)) :
    ValueLog.new dir ⟨fs, faults⟩ =
      .ok ⟨dir.join vlogFileName, 0, 0, 0⟩ ⟨(fs.addDir dir).touch (dir.join vlogFileName), faults⟩ := rfl

theorem append_ok (v : ValueLog) (r : Record) (fs : Fs) :
    v.append r.1 r.2.1 r.2.2.1 r.2.2.2 ⟨fs, []⟩ =
      .ok (v.size, { v with size := v.size + r.len }) ⟨fs.append v.path r.entry.serialize, []⟩ := by
  simp only [append, bind, EStateM.bind, ignoreResult, writeAll_ok, pure, EStateM.pure,
    ← length_serialize_entry]
  rfl

/-- The offsets a run of appends starting at `s` returns: each is `s` plus the lengths before it. -/
def offsetsFrom (s : Nat) : List Record → List Nat
  | [] => []
  | r :: rs => s :: offsetsFrom (s + r.len) rs

theorem appendAll_ok : ∀ (v : ValueLog) (rs : List Record) {fs : Fs} {c : Bytes},
    fs.files v.path = some c →
    v.appendAll rs ⟨fs, []⟩ =
      .ok (offsetsFrom v.size rs, { v with size := v.size + (rs.map Record.len).sum })
        ⟨fs.append v.path (rs.map fun r => r.entry.serialize).flatten, []⟩
  | v, [], fs, c, hc => by simp [appendAll, Fs.append_nil hc, pure, EStateM.pure, offsetsFrom]
  | v, r :: rs, fs, c, hc => by
    have hc' : (fs.append v.path r.entry.serialize).files v.path = some (c ++ r.entry.serialize) := by
      simp [Fs.append_files, hc]
    simp only [appendAll, bind, EStateM.bind, append_ok, appendAll_ok { v with size := v.size + r.len } rs hc', pure, EStateM.pure,
      Fs.append_append, offsetsFrom, List.map_cons, List.sum_cons, List.flatten_cons, Nat.add_assoc]

theorem offsetsFrom_eq (s : Nat) : ∀ rs : List Record,
    offsetsFrom s rs = (List.range rs.length).map fun i => s + ((rs.take i).map Record.len).sum
  | [] => rfl
  | r :: rs => by
    rw [offsetsFrom, offsetsFrom_eq (s + r.len) rs, List.length_cons, List.range_succ_eq_map]
    simp [Nat.add_assoc]

/-- The spec's framing of the log file (§3): a 17-byte header `key_len:u32 ‖ value_len:u32 ‖
created_at:i64 ‖ is_tombstone:u8`, then the key and the value. Each record comes with the
offset it starts at; `none` when the bytes do not split into whole records. -/
def splitRecords : Nat → Nat → Bytes → Option (List (Nat × Bytes × Bytes × Int × Bool))
  | 0, _, bytes => if bytes = [] then some [] else none
  | fuel + 1, pos, bytes =>
    if bytes = [] then some [] else
    let (header, body) := fileRead 17 bytes
    let keyLen := ofLe (header.take 4)
    let valueLen := ofLe ((header.drop 4).take 4)
    let (key, body) := fileRead keyLen body
    let (value, rest) := fileRead valueLen body
    if header.length + key.length + value.length < 17 + keyLen + valueLen then none
    else ((pos, key, value, ofI64 ((header.drop 8).take 8), header.drop 16 == [1]) :: ·) <$>
      splitRecords fuel (pos + 17 + keyLen + valueLen) rest

private theorem header_fields (A B C : Bytes) (d : UInt8) (hA : A.length = 4) (hB : B.length = 4)
    (hC : C.length = 8) :
    (A ++ B ++ C ++ [d]).take 4 = A ∧ ((A ++ B ++ C ++ [d]).drop 4).take 4 = B ∧
      ((A ++ B ++ C ++ [d]).drop 8).take 8 = C ∧ (A ++ B ++ C ++ [d]).drop 16 = [d] := by
  have h8 : (A ++ B).length = 8 := by simp [hA, hB]
  have h16 : (A ++ B ++ C).length = 16 := by simp [hA, hB, hC]
  refine ⟨by simp [List.take_append_of_le_length, hA], by simp [List.drop_left', List.take_append_of_le_length, hA, hB], ?_, ?_⟩
  · rw [List.append_assoc (A ++ B), List.drop_left' h8, List.take_left' hC]
  · rw [List.drop_left' h16]

theorem splitRecords_step (fuel pos : Nat) {header key value : Bytes} (rest : Bytes)
    (hh : header.length = 17) (hk : ofLe (header.take 4) = key.length)
    (hv : ofLe ((header.drop 4).take 4) = value.length) :
    splitRecords (fuel + 1) pos (header ++ (key ++ value) ++ rest) =
      ((pos, key, value, ofI64 ((header.drop 8).take 8), header.drop 16 == [1]) :: ·) <$>
        splitRecords fuel (pos + 17 + key.length + value.length) rest := by
  rw [List.append_assoc, List.append_assoc]
  have hne : header ++ (key ++ (value ++ rest)) ≠ [] := List.ne_nil_of_length_pos (by simp [hh])
  rw [splitRecords, if_neg hne, fileRead_append _ hh]
  dsimp only
  rw [hk, hv, fileRead_append _ rfl, fileRead_append _ rfl]
  dsimp only
  rw [if_neg (by omega)]

theorem splitRecords_serialized : ∀ (rs : List Record) (fuel pos : Nat),
    (∀ r ∈ rs, r.1.length < 2 ^ 32 ∧ r.2.1.length < 2 ^ 32) →
    splitRecords (fuel + rs.length) pos (rs.map fun r => r.entry.serialize).flatten =
      some ((offsetsFrom pos rs).zip (rs.map Record.view))
  | [], fuel, pos, _ => by cases fuel <;> simp [splitRecords, offsetsFrom]
  | ⟨k, val, t, d⟩ :: rs, fuel, pos, h => by
    obtain ⟨hk, hv⟩ := h _ (List.mem_cons_self _ _)
    have hC : (i64Bytes t.millis).length = 8 := by simp [i64Bytes]
    obtain ⟨h₁, h₂, h₃, h₄⟩ := header_fields (leBytes 4 (k.length % 2 ^ 32))
      (leBytes 4 (val.length % 2 ^ 32)) (i64Bytes t.millis) (if d then 1 else 0) (by simp)
      (by simp) hC
    have hser : (Record.entry (k, val, t, d)).serialize =
        (leBytes 4 (k.length % 2 ^ 32) ++ leBytes 4 (val.length % 2 ^ 32) ++ i64Bytes t.millis ++
          [if d then 1 else 0]) ++ (k ++ val) := by
      simp [Record.entry, ValueLogEntry.serialize]
    rw [List.length_cons, ← Nat.add_assoc, List.map_cons, List.flatten_cons, hser,
      splitRecords_step _ _ _ (by simp [hC]) (by rw [h₁, ofLe_leBytes]; dsimp only at hk; omega)
        (by rw [h₂, ofLe_leBytes]; dsimp only at hv; omega),
      splitRecords_serialized rs fuel _ (fun r hr => h r (List.mem_cons_of_mem _ hr)), h₃, h₄,
      ofI64_i64Bytes t.lo t.hi]
    cases d <;> simp [offsetsFrom, Record.view, Record.len, Nat.add_assoc]

theorem length_le_serialized (rs : List Record) :
    rs.length ≤ ((rs.map fun r => r.entry.serialize).flatten).length := by
  induction rs with
  | nil => simp
  | cons r rs ih => simp [Record.len] at ih ⊢; omega

theorem new_appendAll_ok (dir : Path) (fs : Fs) (rs : List Record) :
    (ValueLog.new dir >>= fun v => v.appendAll rs) ⟨fs, []⟩ =
      .ok ((List.range rs.length).map (fun i => ((rs.take i).map Record.len).sum),
        ⟨dir.join vlogFileName, 0, 0, (rs.map Record.len).sum⟩)
        ⟨((fs.addDir dir).touch (dir.join vlogFileName)).append (dir.join vlogFileName)
          (rs.map fun r => r.entry.serialize).flatten, []⟩ := by
  have hc : ((fs.addDir dir).touch (dir.join vlogFileName)).files (dir.join vlogFileName) =
      some ((fs.files (dir.join vlogFileName)).getD []) := by simp [Fs.touch_files]
  simp only [bind, EStateM.bind, new_ok, appendAll_ok ⟨dir.join vlogFileName, 0, 0, 0⟩ rs hc,
    offsetsFrom_eq, Nat.zero_add]

/-- Appends on a fresh log, every write succeeding: the `i`-th returns the total length of the
records before it, `size` ends at the total, and the file splits by the spec's framing into
exactly the records appended, in order, each at the offset returned for it. -/
theorem appendAll_frames_records (dir : Path) (fs : Fs) (rs : List Record)
    (fresh : (fs.files (dir.join vlogFileName)).getD [] = [])
    (hlen : ∀ r ∈ rs, r.1.length < 2 ^ 32 ∧ r.2.1.length < 2 ^ 32) :
    ∃ v w, (ValueLog.new dir >>= fun v => v.appendAll rs) ⟨fs, []⟩ =
        .ok ((List.range rs.length).map (fun i => ((rs.take i).map Record.len).sum), v) w ∧
      v.size = (rs.map Record.len).sum ∧
      ∃ bytes, w.fs.files v.path = some bytes ∧
        splitRecords bytes.length 0 bytes =
          some (((List.range rs.length).map fun i => ((rs.take i).map Record.len).sum).zip
            (rs.map Record.view)) := by
  refine ⟨_, _, new_appendAll_ok dir fs rs, rfl, (rs.map fun r => r.entry.serialize).flatten,
    by simp [Fs.append_files, Fs.touch_files, fresh], ?_⟩
  obtain ⟨f, hf⟩ : ∃ f, ((rs.map fun r => r.entry.serialize).flatten).length = f + rs.length :=
    ⟨_, (Nat.sub_add_cancel (length_le_serialized rs)).symm⟩
  rw [hf, splitRecords_serialized rs f 0 hlen, offsetsFrom_eq]
  simp only [Nat.zero_add]

/-- A put of `[2, 3]` under `[1]`, then a tombstone for `[1]`. -/
def putThenDelete : List Record :=
  [([1], [2, 3], ⟨5, by decide, by decide⟩, false), ([1], [], ⟨6, by decide, by decide⟩, true)]

theorem appendAll_frames_put_then_delete :
    (Fs.empty.files ((Path.root.join (.named "db")).join vlogFileName)).getD [] = [] ∧
      (∀ r ∈ putThenDelete, r.1.length < 2 ^ 32 ∧ r.2.1.length < 2 ^ 32) ∧
      ∃ v w, (ValueLog.new (Path.root.join (.named "db")) >>= fun v => v.appendAll putThenDelete)
          ⟨Fs.empty, []⟩ = .ok ([0, 20], v) w ∧ v.size = 38 ∧
        ∃ bytes, w.fs.files v.path = some bytes ∧
          splitRecords bytes.length 0 bytes = some [(0, [1], [2, 3], 5, false), (20, [1], [], 6, true)] :=
  have h₁ : (Fs.empty.files ((Path.root.join (.named "db")).join vlogFileName)).getD [] = [] := rfl
  have h₂ : ∀ r ∈ putThenDelete, r.1.length < 2 ^ 32 ∧ r.2.1.length < 2 ^ 32 := by
    simp [putThenDelete]
  ⟨h₁, h₂, appendAll_frames_records _ Fs.empty putThenDelete h₁ h₂⟩

/-- The first write of a fresh log fails: `append` answers `Ok(0)` and `size` becomes 19, but the
file is still empty, so the next append's offset points past its end. -/
theorem append_acknowledges_failed_write :
    ∃ v w, (ValueLog.new (Path.root.join (.named "db")) >>= fun v =>
        v.append [1] [2] ⟨0, by decide, by decide⟩ false) ⟨Fs.empty, [some 0]⟩ = .ok (0, v) w ∧
      v.size = 19 ∧ w.fs.files v.path = some [] :=
  ⟨_, _, rfl, rfl, rfl⟩

/-- What a caller can do to a value log. -/
inductive Op where
  | append (r : Record)
  | clearAll
  | setHead (head : Nat)
  | setTail (tail : Nat)

def Op.isClearAll : Op → Bool
  | .clearAll => true
  | _ => false

def Op.run : Op → ValueLog → Io ValueLog
  | .append r, v => do
    let (_, v) ← v.append r.1 r.2.1 r.2.2.1 r.2.2.2
    pure v
  | .clearAll, v => v.clearAll
  | .setHead head, v => pure (v.setHead head)
  | .setTail tail, v => pure (v.setTail tail)

def runOps : List Op → ValueLog → Io ValueLog
  | [], v => pure v
  | op :: ops, v => do runOps ops (← op.run v)

/-- `size` is the length of the file: the offset the next `append` returns is where its record
will start. -/
def SizeTracksFile (v : ValueLog) (fs : Fs) : Prop :=
  ∃ c, fs.files v.path = some c ∧ c.length = v.size

theorem sizeTracksFile_run {op : Op} (hop : op.isClearAll = false) {v : ValueLog} {fs : Fs}
    (h : SizeTracksFile v fs) :
    ∃ v' fs', op.run v ⟨fs, []⟩ = .ok v' ⟨fs', []⟩ ∧ SizeTracksFile v' fs' := by
  obtain ⟨c, hc, hl⟩ := h
  cases op with
  | append r =>
    refine ⟨_, _, by simp only [Op.run, bind, EStateM.bind, append_ok]; rfl, c ++ r.entry.serialize,
      by simp [Fs.append_files, hc], by simp only [List.length_append, hl, length_serialize_entry]⟩
  | clearAll => cases hop
  | setHead head => exact ⟨_, _, rfl, c, hc, hl⟩
  | setTail tail => exact ⟨_, _, rfl, c, hc, hl⟩

theorem sizeTracksFile_runOps : ∀ (ops : List Op) {v : ValueLog} {fs : Fs},
    (∀ op ∈ ops, op.isClearAll = false) → SizeTracksFile v fs →
    ∃ v' fs', runOps ops v ⟨fs, []⟩ = .ok v' ⟨fs', []⟩ ∧ SizeTracksFile v' fs'
  | [], _, _, _, h => ⟨_, _, rfl, h⟩
  | op :: ops, _, _, hops, h => by
    obtain ⟨v₁, fs₁, h₁, hv₁⟩ := sizeTracksFile_run (hops op (List.mem_cons_self _ _)) h
    obtain ⟨v₂, fs₂, h₂, hv₂⟩ :=
      sizeTracksFile_runOps ops (fun o ho => hops o (List.mem_cons_of_mem _ ho)) hv₁
    exact ⟨v₂, fs₂, by simp only [runOps, bind, EStateM.bind, h₁, h₂], hv₂⟩

theorem sizeTracksFile_after_put_and_head_move :
    (∀ op ∈ [Op.append ([1], [2, 3], ⟨5, by decide, by decide⟩, false), Op.setHead 20],
        op.isClearAll = false) ∧
      SizeTracksFile ⟨(Path.root.join (.named "db")).join vlogFileName, 0, 0, 0⟩
        (Fs.empty.setFile ((Path.root.join (.named "db")).join vlogFileName) (some [])) ∧
      ∃ v' fs', runOps [Op.append ([1], [2, 3], ⟨5, by decide, by decide⟩, false), Op.setHead 20]
          ⟨(Path.root.join (.named "db")).join vlogFileName, 0, 0, 0⟩
          ⟨Fs.empty.setFile ((Path.root.join (.named "db")).join vlogFileName) (some []), []⟩ =
          .ok v' ⟨fs', []⟩ ∧ SizeTracksFile v' fs' :=
  have hops : ∀ op ∈ [Op.append ([1], [2, 3], ⟨5, by decide, by decide⟩, false), Op.setHead 20],
      op.isClearAll = false := by decide
  have h : SizeTracksFile ⟨(Path.root.join (.named "db")).join vlogFileName, 0, 0, 0⟩
      (Fs.empty.setFile ((Path.root.join (.named "db")).join vlogFileName) (some [])) :=
    ⟨[], by simp, rfl⟩
  ⟨hops, h, sizeTracksFile_runOps _ hops h⟩

open SSTable in
/-- The offsets a run of appends hands out, stored in an SSTable that is written and reopened in
the same world, come back from `from_file` and from `get` as their low 32 bits. -/
theorem valueOffset_read_back_mod (vdir sdir : Path) (now now' : Nat) (fs : Fs) (rs : List Record)
    (E : SkipMap EntryValue) (fresh : fs.files (sdir.join (.sstable now)) = none)
    (hv : sdir.join (.sstable now) ≠ vdir.join vlogFileName)
    (hkeys : ∀ e ∈ E.toList, e.1 ≠ [] ∧ e.1.length + 17 ≤ blockSize) :
    ∃ v w t w', (ValueLog.new vdir >>= fun v => v.appendAll rs) ⟨fs, []⟩ =
        .ok ((List.range rs.length).map fun i => ((rs.take i).map Record.len).sum, v) w ∧
      writeThenRecover sdir now now' E w = .ok (some t) w' ∧
      ∀ e ∈ E.toList, t.entries.get e.1 = some (e.2.1 % 2 ^ 32, e.2.2) ∧
        t.get 0 e.1 w' = .ok (some (e.2.1 % 2 ^ 32, e.2.2)) w' := by
  obtain ⟨t, w', h, ht, hd⟩ := writeThenRecover_ok sdir now now' E
    (((fs.addDir vdir).touch (vdir.join vlogFileName)).append (vdir.join vlogFileName)
      (rs.map fun r => r.entry.serialize).flatten)
    (by simp [Fs.append_files, Fs.touch_files, hv, fresh]) hkeys
  have hlen : ∀ e ∈ E.toList, e.1 ≠ [] ∧ e.1.length < 2 ^ 32 := fun e he =>
    ⟨(hkeys e he).1, by have := (hkeys e he).2; simp only [blockSize] at this; omega⟩
  refine ⟨_, _, t, w', new_appendAll_ok vdir fs rs, h, fun e he => ?_⟩
  have hg : (truncateOffsets E).get e.1 = some (e.2.1 % 2 ^ 32, e.2.2) :=
    SkipMap.get_of_mem (e := readBack e) (List.mem_map_of_mem _ he)
  rw [ht, ← hg]
  exact ⟨rfl, get_ok t e.1 hd hlen⟩

open SSTable in
theorem valueOffset_read_back_mod_single_entry :
    Fs.empty.files (((Path.root.join (.named "db")).join (.bucket 0)).join (.sstable 0)) = none ∧
      ((Path.root.join (.named "db")).join (.bucket 0)).join (.sstable 0) ≠
        (Path.root.join (.named "db")).join vlogFileName ∧
      (∀ e ∈ singleEntry.toList, e.1 ≠ [] ∧ e.1.length + 17 ≤ blockSize) ∧
      ∃ v w t w', (ValueLog.new (Path.root.join (.named "db")) >>= fun v =>
          v.appendAll putThenDelete) ⟨Fs.empty, []⟩ = .ok ([0, 20], v) w ∧
        writeThenRecover ((Path.root.join (.named "db")).join (.bucket 0)) 0 1 singleEntry w =
          .ok (some t) w' ∧
        t.entries.get [7] = some (5, 9, true) ∧ t.get 0 [7] w' = .ok (some (5, 9, true)) w' := by
  have h₁ : Fs.empty.files (((Path.root.join (.named "db")).join (.bucket 0)).join (.sstable 0)) =
    none := rfl
  have h₂ : ((Path.root.join (.named "db")).join (.bucket 0)).join (.sstable 0) ≠
      (Path.root.join (.named "db")).join vlogFileName := by simp [vlogFileName]
  have h₃ : ∀ e ∈ singleEntry.toList, e.1 ≠ [] ∧ e.1.length + 17 ≤ blockSize := by
    simp [singleEntry, blockSize]
  obtain ⟨v, w, t, w', hrun, hw, he⟩ :=
    valueOffset_read_back_mod _ _ 0 1 Fs.empty putThenDelete singleEntry h₁ h₂ h₃
  exact ⟨h₁, h₂, h₃, v, w, t, w', hrun, hw, he _ (List.mem_singleton_self _)⟩

/-- A record under key `[1]` whose value is `n` zero bytes. -/
def zeroValueRecord (n : Nat) : Record := ([1], List.replicate n 0, ⟨0, by decide, by decide⟩, false)

theorem len_zeroValueRecord (n : Nat) : (zeroValueRecord n).len = n + 18 := by
  simp only [Record.len, zeroValueRecord, List.length_replicate, List.length_singleton]
  omega

/-- The record appended after it. -/
def afterFourGiB : Record := ([2], [], ⟨0, by decide, by decide⟩, false)

/-- The table entry for `[2]`, pointing at the second record. -/
def pointerPastFourGiB : SkipMap EntryValue :=
  ⟨[([2], 2 ^ 32 + 18, 0, false)], List.pairwise_singleton _ _⟩

open SSTable in
/-- After a 4 GiB value the log hands out offset `2^32 + 18`; the SSTable that stores it reads
back 18, the offset of a byte inside the first record's value. -/
theorem valueOffset_wraps_past_four_gib :
    ∃ v w t w', (ValueLog.new (Path.root.join (.named "db")) >>= fun v =>
        v.appendAll [zeroValueRecord (2 ^ 32), afterFourGiB]) ⟨Fs.empty, []⟩ = .ok ([0, 2 ^ 32 + 18], v) w ∧
      writeThenRecover ((Path.root.join (.named "db")).join (.bucket 0)) 0 1 pointerPastFourGiB w =
        .ok (some t) w' ∧
      t.entries.get [2] = some (18, 0, false) ∧ t.get 0 [2] w' = .ok (some (18, 0, false)) w' := by
  have hkeys : ∀ e ∈ pointerPastFourGiB.toList, e.1 ≠ [] ∧ e.1.length + 17 ≤ blockSize := by
    simp [pointerPastFourGiB, blockSize]
  obtain ⟨t, w', h, ht, hd⟩ := writeThenRecover_ok ((Path.root.join (.named "db")).join (.bucket 0)) 0 1
    pointerPastFourGiB
    (((Fs.empty.addDir (Path.root.join (.named "db"))).touch
      ((Path.root.join (.named "db")).join vlogFileName)).append
      ((Path.root.join (.named "db")).join vlogFileName)
      ([zeroValueRecord (2 ^ 32), afterFourGiB].map fun r => r.entry.serialize).flatten)
    (by simp [Fs.append_files, Fs.touch_files, vlogFileName, Fs.empty]) hkeys
  have hg : (truncateOffsets pointerPastFourGiB).get [2] = some (18, 0, false) := by
    simp [truncateOffsets, pointerPastFourGiB, readBack, SkipMap.get]
  have hrun := new_appendAll_ok (Path.root.join (.named "db")) Fs.empty [zeroValueRecord (2 ^ 32), afterFourGiB]
  simp only [List.length_cons, List.length_nil, List.range_succ, List.range_zero, List.nil_append,
    List.singleton_append, List.map_cons, List.map_nil, List.take_zero, List.take_succ_cons,
    List.sum_nil, List.sum_cons, len_zeroValueRecord] at hrun
  refine ⟨_, _, t, w', hrun, h, ht ▸ hg, ?_⟩
  rw [← hg]
  exact get_ok t [2] hd (by simp [pointerPastFourGiB])

end ValueLog
end Velarix