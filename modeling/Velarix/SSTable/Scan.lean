import Velarix.SSTable.Layout

/-! The decode loops of `from_file`, `get` and `range`: that they end, that a cut record ends them
in `UnexpectedEOF`, and what `get` and `range` find from indexed offsets. -/
namespace Velarix
set_option autoImplicit false
open Io

namespace SSTable

/-- The key length a pass reads from the first four bytes of `rest`. -/
def keyLenAt (rest : Bytes) : Nat := ofLe (pad 4 (rest.take 4))

theorem readEntry_cases (rest : Bytes) :
    rest = [] ∧ readEntry rest = .ok none ∨
      rest ≠ [] ∧ readEntry rest = .error .unexpectedEOF ∨
      0 < keyLenAt rest ∧ keyLenAt rest + 17 ≤ rest.length ∧
        ∃ x r, readEntry rest = .ok (some (x, r)) ∧ r = rest.drop (keyLenAt rest + 17) := by
  unfold keyLenAt
  generalize hr : readEntry rest = r
  unfold readEntry at hr
  simp only [fileRead] at hr
  split_ifs at hr with h₁ h₂ h₃ h₄ h₅ <;> subst hr
  · exact .inl ⟨by simpa using h₁, rfl⟩
  iterate 4 exact .inr (.inl ⟨fun h => h₁ (by simp [h]), rfl⟩)
  · simp only [List.length_take, List.length_drop] at h₂ h₅
    refine .inr (.inr ⟨by omega, by omega, _, _, rfl, ?_⟩)
    simp only [List.drop_drop]
    congr 1
    omega

theorem readEntry_eq_ok_some {rest r : Bytes} {x : Key × EntryValue}
    (h : readEntry rest = .ok (some (x, r))) :
    0 < keyLenAt rest ∧ keyLenAt rest + 17 ≤ rest.length ∧ r = rest.drop (keyLenAt rest + 17) := by
  rcases readEntry_cases rest with ⟨-, h'⟩ | ⟨-, h'⟩ | ⟨h0, hle, y, r', h', hr⟩ <;> rw [h'] at h <;>
    cases h
  exact ⟨h0, hle, hr⟩

theorem eq_nil_of_readEntry {rest : Bytes} (h : readEntry rest = .ok none) : rest = [] := by
  rcases readEntry_cases rest with ⟨hnil, -⟩ | ⟨-, h'⟩ | ⟨-, -, y, r, h', -⟩
  · exact hnil
  all_goals rw [h'] at h; cases h

theorem readEntry_error {rest : Bytes} {e : StorageEngineError} (h : readEntry rest = .error e) :
    e = .unexpectedEOF := by
  rcases readEntry_cases rest with ⟨-, h'⟩ | ⟨-, h'⟩ | ⟨-, -, y, r, h', -⟩ <;> rw [h'] at h <;> cases h
  rfl

theorem length_lt_of_readEntry {rest r : Bytes} {x : Key × EntryValue}
    (h : readEntry rest = .ok (some (x, r))) : r.length < rest.length := by
  obtain ⟨-, hle, rfl⟩ := readEntry_eq_ok_some h
  simp only [List.length_drop]
  omega

theorem keyLenAt_recordOf (e : Key × EntryValue) (rest : Bytes) :
    keyLenAt (recordOf e ++ rest) = e.1.length % 2 ^ 32 := by
  simp only [keyLenAt, recordOf, encodeEntry, List.append_assoc,
    List.take_left' (length_leBytes 4 _), pad_of_length (length_leBytes 4 _), ofLe_leBytes]
  omega

theorem readEntry_record_nil (v : EntryValue) (rest : Bytes) :
    readEntry (recordOf ([], v) ++ rest) = .error .unexpectedEOF := by
  simp only [recordOf, encodeEntry, List.append_assoc]
  unfold readEntry
  rw [fileRead_append _ (length_leBytes 4 _)]
  simp [pad_of_length (length_leBytes 4 _), ofLe_leBytes, fileRead]

theorem readEntry_take_record (e : Key × EntryValue) (he : e.1.length < 2 ^ 32) {j : Nat}
    (hj : 0 < j) (hjr : j < (recordOf e).length) :
    readEntry ((recordOf e).take j) = .error .unexpectedEOF := by
  have hlen : (recordOf e).length = e.1.length + 17 := length_encodeEntry ..
  rcases h : readEntry ((recordOf e).take j) with e' | _ | ⟨x, r⟩
  · rw [readEntry_error h]
  · have := congrArg List.length (eq_nil_of_readEntry h)
    simp only [List.length_take, List.length_nil] at this
    omega
  · obtain ⟨-, hle, -⟩ := readEntry_eq_ok_some h
    rw [List.length_take] at hle
    have hK : keyLenAt ((recordOf e).take j) = e.1.length := by
      rw [keyLenAt, List.take_take, min_eq_left (by omega), ← keyLenAt,
        ← List.append_nil (recordOf e), keyLenAt_recordOf, Nat.mod_eq_of_lt he]
    omega

/-- The loop of `from_file` with no bound on its passes. A pass that goes on has read a record,
so the loop ends. -/
def decodeLoop (rest : Bytes) (entries : SkipMap EntryValue) :
    Except StorageEngineError (SkipMap EntryValue) :=
  match _h : readEntry rest with
  | .error e => .error e
  | .ok none => .ok entries
  | .ok (some ((key, value), rest')) => decodeLoop rest' (entries.insert key value)
termination_by rest.length
decreasing_by exact length_lt_of_readEntry _h

/-- The loop of `get` with no bound on its passes. -/
def searchLoop (rest : Bytes) (searchedKey : Key) : Except StorageEngineError (Option EntryValue) :=
  match _h : readEntry rest with
  | .error e => .error e
  | .ok none => .ok none
  | .ok (some ((key, value), rest')) =>
    if key = searchedKey then .ok (some value) else searchLoop rest' searchedKey
termination_by rest.length
decreasing_by exact length_lt_of_readEntry _h

/-- The loop of `range` with no bound on its passes. -/
def rangeLoop (rest : Bytes) (totalBytesRead endOffset : Nat) (entries : List (Key × EntryValue)) :
    Except StorageEngineError (List (Key × EntryValue)) :=
  match _h : readEntry rest with
  | .error e => .error e
  | .ok none => .ok entries
  | .ok (some (entry, rest')) =>
    let totalBytesRead := totalBytesRead + (rest.length - rest'.length)
    let entries := entries ++ [entry]
    if endOffset ≤ totalBytesRead % 2 ^ 32 then .ok entries
    else rangeLoop rest' totalBytesRead endOffset entries
termination_by rest.length
decreasing_by exact length_lt_of_readEntry _h

theorem decodeEntries_eq_decodeLoop : ∀ (fuel : Nat) (rest : Bytes) (entries : SkipMap EntryValue),
    rest.length < fuel → decodeEntries fuel rest entries = decodeLoop rest entries
  | 0, _, _, h => absurd h (Nat.not_lt_zero _)
  | fuel + 1, rest, entries, h => by
    rw [decodeLoop]
    split
    next e hr => rw [decodeEntries, hr]
    next hr => rw [decodeEntries, hr]
    next key value rest' hr =>
      rw [decodeEntries, hr]
      exact decodeEntries_eq_decodeLoop fuel rest' _ (by have := length_lt_of_readEntry hr; omega)

theorem searchEntries_eq_searchLoop : ∀ (fuel : Nat) (rest : Bytes) (k : Key),
    rest.length < fuel → searchEntries fuel rest k = searchLoop rest k
  | 0, _, _, h => absurd h (Nat.not_lt_zero _)
  | fuel + 1, rest, k, h => by
    rw [searchLoop]
    split
    next e hr => rw [searchEntries, hr]
    next hr => rw [searchEntries, hr]
    next key value rest' hr =>
      rw [searchEntries, hr]
      dsimp only
      rw [searchEntries_eq_searchLoop fuel rest' k (by have := length_lt_of_readEntry hr; omega)]

theorem rangeEntries_eq_rangeLoop : ∀ (fuel : Nat) (rest : Bytes) (total endOffset : Nat)
    (entries : List (Key × EntryValue)), rest.length < fuel →
    rangeEntries fuel rest total endOffset entries = rangeLoop rest total endOffset entries
  | 0, _, _, _, _, h => absurd h (Nat.not_lt_zero _)
  | fuel + 1, rest, total, endOffset, entries, h => by
    rw [rangeLoop]
    split
    next e hr => rw [rangeEntries, hr]
    next hr => rw [rangeEntries, hr]
    next entry rest' hr =>
      rw [rangeEntries, hr]
      dsimp only
      rw [rangeEntries_eq_rangeLoop fuel rest' _ endOffset _
        (by have := length_lt_of_readEntry hr; omega)]

theorem length_le_records : ∀ l : List (Key × EntryValue), l.length ≤ ((l.map recordOf).flatten).length
  | [] => le_refl _
  | e :: l => by
    have := length_le_records l
    simp only [List.map_cons, List.flatten_cons, List.length_append, List.length_cons, recordOf,
      length_encodeEntry]
    omega

section Cut
variable {p : Bytes} (hp : readEntry p = .error .unexpectedEOF)
include hp

theorem decodeEntries_cut : ∀ (l : List (Key × EntryValue)) (fuel : Nat) (m : SkipMap EntryValue),
    (∀ x ∈ l, x.1.length < 2 ^ 32) → l.length < fuel →
    decodeEntries fuel ((l.map recordOf).flatten ++ p) m = .error .unexpectedEOF
  | _, 0, _, _, h => absurd h (Nat.not_lt_zero _)
  | [], _ + 1, _, _, _ => by rw [decodeEntries, List.map_nil, List.flatten_nil, List.nil_append, hp]
  | (k, v) :: l, fuel + 1, m, hl, hf => by
    rw [decodeEntries, List.map_cons, List.flatten_cons, List.append_assoc]
    by_cases hk : k = []
    · subst hk
      rw [readEntry_record_nil]
    · rw [readEntry_record k v _ hk (hl _ (List.mem_cons_self _ _))]
      exact decodeEntries_cut l fuel _ (fun y hy => hl y (List.mem_cons_of_mem _ hy))
        (Nat.succ_lt_succ_iff.mp hf)

theorem searchEntries_cut (k : Key) : ∀ (l : List (Key × EntryValue)) (fuel : Nat),
    (∀ x ∈ l, x.1.length < 2 ^ 32) → (∀ x ∈ l, x.1 ≠ k) → l.length < fuel →
    searchEntries fuel ((l.map recordOf).flatten ++ p) k = .error .unexpectedEOF
  | _, 0, _, _, h => absurd h (Nat.not_lt_zero _)
  | [], _ + 1, _, _, _ => by rw [searchEntries, List.map_nil, List.flatten_nil, List.nil_append, hp]
  | (k', v) :: l, fuel + 1, hl, hk, hf => by
    rw [searchEntries, List.map_cons, List.flatten_cons, List.append_assoc]
    by_cases hk' : k' = []
    · subst hk'
      rw [readEntry_record_nil]
    · rw [readEntry_record k' v _ hk' (hl _ (List.mem_cons_self _ _))]
      dsimp only [readBack]
      rw [if_neg (hk _ (List.mem_cons_self _ _))]
      exact searchEntries_cut k l fuel (fun y hy => hl y (List.mem_cons_of_mem _ hy))
        (fun y hy => hk y (List.mem_cons_of_mem _ hy)) (Nat.succ_lt_succ_iff.mp hf)

theorem rangeEntries_cut : ∀ (l : List (Key × EntryValue)) (fuel total endOffset : Nat)
    (acc : List (Key × EntryValue)), (∀ x ∈ l, x.1.length < 2 ^ 32) →
    (∀ n, 0 < n → n ≤ l.length →
      (total + ((l.take n).map recordOf).flatten.length) % 2 ^ 32 < endOffset) → l.length < fuel →
    rangeEntries fuel ((l.map recordOf).flatten ++ p) total endOffset acc = .error .unexpectedEOF
  | _, 0, _, _, _, _, _, h => absurd h (Nat.not_lt_zero _)
  | [], _ + 1, _, _, _, _, _, _ => by
    rw [rangeEntries, List.map_nil, List.flatten_nil, List.nil_append, hp]
  | (k, v) :: l, fuel + 1, total, endOffset, acc, hl, hend, hf => by
    rw [rangeEntries, List.map_cons, List.flatten_cons, List.append_assoc]
    by_cases hk : k = []
    · subst hk
      rw [readEntry_record_nil]
    · rw [readEntry_record k v _ hk (hl _ (List.mem_cons_self _ _))]
      have h₁ := hend 1 (by omega) (by simp)
      simp only [List.take_succ_cons, List.take_zero, List.map_cons, List.map_nil,
        List.flatten_cons, List.flatten_nil, List.append_nil] at h₁
      dsimp only
      rw [List.length_append, Nat.add_sub_cancel, if_neg (by omega)]
      refine rangeEntries_cut l fuel _ endOffset _ (fun y hy => hl y (List.mem_cons_of_mem _ hy))
        (fun n hn hnl => ?_) (Nat.succ_lt_succ_iff.mp hf)
      have := hend (n + 1) (by omega) (by simp; omega)
      simpa only [List.take_succ_cons, List.map_cons, List.flatten_cons, List.length_append,
        Nat.add_assoc] using this

end Cut

/-- The decode loops of `from_file`, `get` and `range` end on every byte string: given more
passes than the string has bytes, each returns what the loop with no bound on its passes
returns. On complete records followed by a non-empty proper prefix of a record, each loop that
gets to the prefix fails with `UnexpectedEOF`: `from_file` always, `get` when no complete record
holds the searched key, `range` when no complete record brings its byte count to the end
offset. -/
theorem decodeLoops_fail_on_cut_record (l : List (Key × EntryValue)) (e : Key × EntryValue)
    {j : Nat} (hl : ∀ x ∈ l, x.1.length < 2 ^ 32) (he : e.1.length < 2 ^ 32) (hj : 0 < j)
    (hjr : j < (recordOf e).length) :
    (∀ (B : Bytes) (fuel : Nat), B.length < fuel →
      (∀ m, decodeEntries fuel B m = decodeLoop B m) ∧
      (∀ k, searchEntries fuel B k = searchLoop B k) ∧
      ∀ total endOffset acc, rangeEntries fuel B total endOffset acc =
        rangeLoop B total endOffset acc) ∧
    (∀ (dir data index : Path) (now : Nat) (fs : Fs) (faults : List (Option Nat)),
      fs.files data = some ((l.map recordOf).flatten ++ (recordOf e).take j) →
      (fs.files index).isSome →
      fromFile dir data index now ⟨fs, faults⟩ = .error .unexpectedEOF ⟨fs, faults⟩) ∧
    (∀ (t : SSTable) (pre : Bytes) (k : Key) (w : World),
      w.fs.files t.dataFilePath = some (pre ++ (l.map recordOf).flatten ++ (recordOf e).take j) →
      (∀ x ∈ l, x.1 ≠ k) → t.get pre.length k w = .error .unexpectedEOF w) ∧
    ∀ (t : SSTable) (pre : Bytes) (endOffset : Nat) (w : World),
      w.fs.files t.dataFilePath = some (pre ++ (l.map recordOf).flatten ++ (recordOf e).take j) →
      (∀ n, 0 < n → n ≤ l.length →
        (pre.length + ((l.take n).map recordOf).flatten.length) % 2 ^ 32 < endOffset) →
      t.range pre.length endOffset w = .error .unexpectedEOF w := by
  have hp := readEntry_take_record e he hj hjr
  have hlen := length_le_records l
  refine ⟨fun B fuel hB => ⟨fun m => decodeEntries_eq_decodeLoop fuel B m hB,
    fun k => searchEntries_eq_searchLoop fuel B k hB,
    fun total endOffset acc => rangeEntries_eq_rangeLoop fuel B total endOffset acc hB⟩,
    fun dir data index now fs faults hd hi => ?_, fun t pre k w hd hk => ?_,
    fun t pre endOffset w hd hend => ?_⟩
  · have hdec := decodeEntries_cut hp l (((l.map recordOf).flatten ++ (recordOf e).take j).length + 1)
      SkipMap.empty hl (by simp only [List.length_append]; omega)
    simp only [fromFile, bind, EStateM.bind, fileExists, openRead, readFile, hd, hi,
      Option.isSome_some, Bool.not_true, Bool.false_eq_true, ↓reduceIte, pure, EStateM.pure,
      Option.getD_some, MonadExcept.ofExcept, hdec]
    rfl
  · simp only [get, bind, EStateM.bind, readFile, hd, Option.getD_some, List.append_assoc,
      List.drop_left]
    rw [searchEntries_cut hp k l _ hl hk]
    · rfl
    · simp only [List.length_append]
      omega
  · simp only [range, bind, EStateM.bind, readFile, hd, Option.getD_some, List.append_assoc,
      List.drop_left]
    rw [rangeEntries_cut hp l _ _ endOffset [] hl hend]
    · rfl
    · simp only [List.length_append]
      omega

/-- A data file holding the record of `[1]` and the first three bytes of the record of `[2]`. -/
def cutRecordFiles : Fs :=
  Fs.empty.setFile (dataDir.join (.sstable 0))
    (some (recordOf ([1], 0, 0, false) ++ (recordOf ([2], 0, 0, false)).take 3))

theorem get_fails_on_cut_record :
    (emptyTable dataDir 0).get 0 [2] ⟨cutRecordFiles, []⟩ =
      .error .unexpectedEOF ⟨cutRecordFiles, []⟩ :=
  (decodeLoops_fail_on_cut_record [([1], 0, 0, false)] ([2], 0, 0, false) (by decide) (by decide)
    (by decide) (by decide)).2.2.1 (emptyTable dataDir 0) [] [2] ⟨cutRecordFiles, []⟩ rfl
    (by decide)

theorem length_recordOf_le {m : SkipMap EntryValue} {e : Key × EntryValue} (he : e ∈ m.toList) :
    (recordOf e).length ≤ (dataBytes m).length :=
  (List.sublist_flatten_of_mem (List.mem_map_of_mem _ he)).length_le

theorem keys_lt_of_dataBytes {m : SkipMap EntryValue} (hsize : (dataBytes m).length < 2 ^ 32)
    {e : Key × EntryValue} (he : e ∈ m.toList) : e.1.length < 2 ^ 32 := by
  have := length_recordOf_le he
  rw [recordOf, length_encodeEntry] at this
  omega

theorem readBack_of_lt {e : Key × EntryValue} (h : e.2.1 < 2 ^ 32) : readBack e = e := by
  rw [readBack, Nat.mod_eq_of_lt h]

theorem searchEntries_records_nil (k : Key) (l : List (Key × EntryValue)) (fuel : Nat)
    (h : ∀ e ∈ l, e.1 ≠ [] ∧ e.1.length < 2 ^ 32) :
    searchEntries (fuel + 1 + l.length) (l.map recordOf).flatten k =
      .ok (((l.map readBack).find? fun e => e.1 = k).map Prod.snd) := by
  have hs := searchEntries_records k l (fuel + 1) [] h
  rw [List.append_nil] at hs
  rw [hs]
  cases (l.map readBack).find? fun e => e.1 = k <;> rfl

theorem get_at_record (t : SSTable) (k : Key) {w : World} (pre post : List (Key × EntryValue))
    (hd : w.fs.files t.dataFilePath = some ((pre.map recordOf).flatten ++ (post.map recordOf).flatten))
    (h : ∀ e ∈ post, e.1 ≠ [] ∧ e.1.length < 2 ^ 32) :
    t.get ((pre.map recordOf).flatten.length) k w =
      .ok (((post.map readBack).find? fun e => e.1 = k).map Prod.snd) w := by
  have hlen := length_le_records post
  obtain ⟨f, hf⟩ : ∃ f, ((pre.map recordOf).flatten ++ (post.map recordOf).flatten).length + 1 =
      f + 1 + post.length :=
    ⟨((pre.map recordOf).flatten ++ (post.map recordOf).flatten).length - post.length, by
      simp only [List.length_append]; omega⟩
  simp only [get, bind, EStateM.bind, readFile, hd, Option.getD_some, List.drop_left, hf,
    searchEntries_records_nil k post f h]
  rfl

theorem find?_from_block {l pre post : List (Key × EntryValue)} {e : Key × EntryValue} {k : Key}
    (hasc : Ascending l) (hsplit : l = pre ++ e :: post) (hk : ¬ keyLt k e.1) :
    l.find? (fun x => x.1 = k) = (e :: post).find? fun x => x.1 = k := by
  have hpre : pre.find? (fun x => x.1 = k) = none := List.find?_eq_none.mpr fun x hx hxk => hk <| by
    have := (List.pairwise_append.mp (hsplit ▸ hasc)).2.2 x hx e (List.mem_cons_self _ _)
    rwa [of_decide_eq_true hxk] at this
  rw [hsplit, List.find?_append, hpre, Option.none_or]

theorem get_from_indexed_offset (t : SSTable) {w w' : World}
    (hc : w.fs.files t.dataFilePath = some []) (hdi : t.dataFilePath ≠ t.indexFilePath)
    (hkeys : ∀ e ∈ t.entries.toList, e.1 ≠ []) (hoff : ∀ e ∈ t.entries.toList, e.2.1 < 2 ^ 32)
    (hsize : (dataBytes t.entries).length < 2 ^ 32) (h : t.writeToFile w = .ok () w') :
    ∃ records : List (Nat × Key × Nat),
      w'.fs.files t.indexFilePath =
        some ((w.fs.files t.indexFilePath).getD [] ++ (records.map indexRecord).flatten) ∧
      ∀ (k : Key) (s : Nat), (s = 0 ∨ ∃ r ∈ records, ¬ keyLt k r.2.1 ∧ s = r.2.2) →
        t.get s k w' = .ok (t.entries.get k) w' := by
  obtain ⟨hdata, records, hidx, hrec⟩ := writeToFile_fresh_eq_ok hc hdi hsize h
  have hlen : ∀ e ∈ t.entries.toList, e.1 ≠ [] ∧ e.1.length < 2 ^ 32 :=
    fun e he => ⟨hkeys e he, keys_lt_of_dataBytes hsize he⟩
  refine ⟨records, hidx, fun k s hs => ?_⟩
  rcases hs with rfl | ⟨r, hr, hk, rfl⟩
  · rw [get_ok t k hdata hlen, truncateOffsets_of_lt hoff]
  obtain ⟨pre, e, post, hsplit, hr₂⟩ := hrec r hr
  rw [hr₂] at hk ⊢
  rw [dataBytes, hsplit, List.map_append, List.flatten_append] at hdata
  have hmem : ∀ x ∈ e :: post, x ∈ t.entries.toList := fun x hx => hsplit ▸ List.mem_append_right _ hx
  rw [get_at_record t k pre (e :: post) hdata fun x hx => hlen x (hmem x hx),
    List.map_congr_left fun x hx => readBack_of_lt (hoff x (hmem x hx)), List.map_id',
    ← find?_from_block t.entries.ascending hsplit hk]
  rfl

theorem get_from_indexed_offset_two_entries :
    freshFiles.files twoEntryTable.dataFilePath = some [] ∧
      twoEntryTable.dataFilePath ≠ twoEntryTable.indexFilePath ∧
      (∀ e ∈ twoEntryTable.entries.toList, e.1 ≠ []) ∧
      (∀ e ∈ twoEntryTable.entries.toList, e.2.1 < 2 ^ 32) ∧
      (dataBytes twoEntryTable.entries).length < 2 ^ 32 ∧
      ∃ w', twoEntryTable.writeToFile ⟨freshFiles, []⟩ = .ok () w' ∧
        ∃ records : List (Nat × Key × Nat),
          w'.fs.files twoEntryTable.indexFilePath = some
            ((freshFiles.files twoEntryTable.indexFilePath).getD [] ++ (records.map indexRecord).flatten) ∧
          ∀ (k : Key) (s : Nat), (s = 0 ∨ ∃ r ∈ records, ¬ keyLt k r.2.1 ∧ s = r.2.2) →
            twoEntryTable.get s k w' = .ok (twoEntryTable.entries.get k) w' :=
  ⟨rfl, by decide, by decide, by decide, by decide, _, rfl,
    @get_from_indexed_offset twoEntryTable ⟨freshFiles, []⟩ _ rfl (by decide) (by decide) (by decide)
      (by decide) rfl⟩

/-- One entry, under the empty key. -/
def emptyKeyEntry : SkipMap EntryValue := ⟨[([], 0, 0, false)], List.pairwise_singleton _ _⟩

theorem get_fails_on_empty_key :
    ∃ w', ((emptyTable dataDir 0).setEntries emptyKeyEntry).writeToFile ⟨freshFiles, []⟩ = .ok () w' ∧
      ((emptyTable dataDir 0).setEntries emptyKeyEntry).get 0 [] w' = .error .unexpectedEOF w' :=
  ⟨_, rfl, rfl⟩

end SSTable
end Velarix
