import Velarix.Bucket.Averages

/-! How hot the tables of a bucket are: at hotness at most 1 per insert, hotness falls along every
bucket, so compaction takes each bucket's hottest tables. -/
namespace Velarix
set_option autoImplicit false
open Io SSTable Relation

/-- Each table's hotness exceeds the number of tables after it. -/
def Bounded : List SSTablePath → Prop
  | [] => True
  | p :: ps => ps.length < p.hotness ∧ Bounded ps

/-- Hotness never rises along the list. -/
def Falls (l : List SSTablePath) : Prop := l.Pairwise fun p q => q.hotness ≤ p.hotness

namespace Bounded

theorem pos : ∀ {l : List SSTablePath}, Bounded l → ∀ p ∈ l, 0 < p.hotness
  | [], _, _, hp => by cases hp
  | q :: qs, ⟨hq, hqs⟩, p, hp => by
    rcases List.mem_cons.mp hp with rfl | hp
    · omega
    · exact pos hqs p hp

theorem join : ∀ {l : List SSTablePath} (p : SSTablePath), Bounded l →
    Bounded ((l ++ [p]).map SSTablePath.increaseHotness)
  | [], p, _ => ⟨by simp, trivial⟩
  | q :: qs, p, ⟨hq, hqs⟩ => ⟨by simpa using hq, join p hqs⟩

theorem take : ∀ {l : List SSTablePath} (n : Nat), Bounded l → Bounded (l.take n)
  | [], _, _ => by simp [Bounded]
  | _ :: _, 0, _ => trivial
  | q :: qs, n + 1, ⟨hq, hqs⟩ => ⟨by simp only [List.length_take]; omega, take n hqs⟩

end Bounded

namespace Falls

theorem join {l : List SSTablePath} {p : SSTablePath} (hf : Falls l)
    (hp : ∀ q ∈ l, p.hotness ≤ q.hotness) : Falls ((l ++ [p]).map SSTablePath.increaseHotness) := by
  unfold Falls
  rw [List.pairwise_map, List.pairwise_append]
  refine ⟨hf.imp fun h => by simpa using h, List.pairwise_singleton _ _, fun q hq r hr => ?_⟩
  rw [List.mem_singleton.mp hr]
  simpa using hp q hq

theorem take {l : List SSTablePath} (n : Nat) (hf : Falls l) : Falls (l.take n) :=
  hf.sublist (List.take_sublist n l)

end Falls

theorem writeIntoBucket_sstables {b : Bucket} {mt : Memtable} {hotness now : Nat} {w w' : World}
    {p : SSTablePath} {b' : Bucket} (h : writeIntoBucket b mt hotness now w = .ok (p, b') w') :
    p.hotness = hotness ∧ b'.sstables = (b.sstables ++ [p]).map SSTablePath.increaseHotness := by
  obtain ⟨t, w₁, -, h⟩ := bind_eq_ok h
  obtain ⟨n, w₂, -, h⟩ := bind_eq_ok h
  obtain ⟨he, -⟩ := pure_eq_ok h
  cases he
  exact ⟨rfl, rfl⟩

theorem insertToAppropriateBucket_ok_cases {m : BucketMap} {mt : Memtable}
    {hotness bucketId now : Nat} {w w' : World} {p : SSTablePath} {m' : BucketMap}
    (h : m.insertToAppropriateBucket mt hotness bucketId now w = .ok (p, m') w') :
    (∃ pre b post b' w₁ w₂, m.buckets = pre ++ b :: post ∧
        writeIntoBucket b mt hotness now w₁ = .ok (p, b') w₂ ∧ m'.buckets = pre ++ b' :: post) ∨
      (p.hotness = 1 ∧ ∃ b : Bucket, b.sstables = [p] ∧ m'.buckets = insertBucket m.buckets b) := by
  unfold BucketMap.insertToAppropriateBucket at h
  obtain ⟨r, w₁, hr, h⟩ := bind_eq_ok h
  rcases r with _ | ⟨p₀, bs⟩
  · obtain ⟨b₀, w₂, -, h⟩ := bind_eq_ok h
    obtain ⟨t, w₃, -, h⟩ := bind_eq_ok h
    obtain ⟨n, w₄, -, h⟩ := bind_eq_ok h
    obtain ⟨he, -⟩ := pure_eq_ok h
    cases he
    exact .inr ⟨rfl, _, rfl, rfl⟩
  · obtain ⟨he, -⟩ := pure_eq_ok h
    cases he
    obtain ⟨pre, b, post, b', hbs, -, -, hwb, rfl⟩ := placeInBuckets_ok_some hr
    exact .inl ⟨pre, b, post, b', _, _, hbs, hwb, rfl⟩

theorem insertToAppropriateBucket_buckets {m : BucketMap} {mt : Memtable}
    {hotness bucketId now : Nat} {w w' : World} {p : SSTablePath} {m' : BucketMap}
    (h : m.insertToAppropriateBucket mt hotness bucketId now w = .ok (p, m') w') :
    ∀ x ∈ m'.buckets, x ∈ m.buckets ∨
      (∃ b ∈ m.buckets, p.hotness = hotness ∧
        x.sstables = (b.sstables ++ [p]).map SSTablePath.increaseHotness) ∨
      (p.hotness = 1 ∧ x.sstables = [p]) := by
  intro x hx
  rcases insertToAppropriateBucket_ok_cases h with
    ⟨pre, b, post, b', w₁, w₂, hbs, hwb, hm'⟩ | ⟨hp, b, hb, hm'⟩
  · obtain ⟨hp, hb'⟩ := writeIntoBucket_sstables hwb
    rw [hm', List.mem_append, List.mem_cons] at hx
    rcases hx with hx | rfl | hx
    · exact .inl (by simp [hbs, hx])
    · exact .inr (.inl ⟨b, by simp [hbs], hp, hb'⟩)
    · exact .inl (by simp [hbs, hx])
  · rcases mem_insertBucket (hm' ▸ hx) with hx | rfl
    · exact .inl hx
    · exact .inr (.inr ⟨hp, hb⟩)

theorem insertToAppropriateBucket_hotness {m : BucketMap} {mt : Memtable}
    {hotness bucketId now : Nat} {w w' : World} {p : SSTablePath} {m' : BucketMap}
    (h : m.insertToAppropriateBucket mt hotness bucketId now w = .ok (p, m') w') :
    p.hotness = hotness ∨ p.hotness = 1 := by
  rcases insertToAppropriateBucket_ok_cases h with ⟨pre, b, post, b', w₁, w₂, -, hwb, -⟩ | ⟨hp, -⟩
  · exact .inl (writeIntoBucket_sstables hwb).1
  · exact .inr hp

theorem MapState.insert_buckets (s : MapState) (mt : Memtable) (hotness bucketId now : Nat) :
    ∀ x ∈ (s.insert mt hotness bucketId now).map.buckets, x ∈ s.map.buckets ∨
      (∃ b ∈ s.map.buckets, ∃ p : SSTablePath, p.hotness = hotness ∧
        x.sstables = (b.sstables ++ [p]).map SSTablePath.increaseHotness) ∨
      (∃ p : SSTablePath, p.hotness = 1 ∧ x.sstables = [p]) := by
  rcases s.insert_eq mt hotness bucketId now with ⟨p, m, w, heq, hins⟩ |
    ⟨e, w, p, bs, -, hpush, hins⟩ | ⟨e, w, -, -, hins⟩ <;> rw [hins] <;> intro x hx
  · rcases insertToAppropriateBucket_buckets heq x hx with hx | ⟨b, hb, hp, hx⟩ | ⟨hp, hx⟩
    · exact .inl hx
    · exact .inr (.inl ⟨b, hb, p, hp, hx⟩)
    · exact .inr (.inr ⟨p, hp, hx⟩)
  · obtain ⟨pre, b, post, t, -, hbs, rfl, -, -, hp, -⟩ := placeInBuckets_of_pushedInPlace hpush
    rcases List.mem_append.mp hx with hx | hx
    · exact .inl (by simp [hbs, hx])
    rcases List.mem_cons.mp hx with rfl | hx
    · exact .inr (.inl ⟨b, by simp [hbs], p, by rw [hp], rfl⟩)
    · exact .inl (by simp [hbs, hx])
  · exact .inl hx

theorem keepPrefixes_buckets : ∀ {D : List (Uuid × List SSTablePath)} {bs bs' : List Bucket},
    keepPrefixes bs D = .ok bs' → ∀ x ∈ bs', ∃ b ∈ bs, ∃ n, x.sstables = b.sstables.take n
  | [], bs, bs', h => by
    cases h
    exact fun x hx => ⟨x, hx, x.sstables.length, (List.take_length _).symm⟩
  | (id, _) :: rest, bs, bs', h => by
    rw [keepPrefixes] at h
    cases hf : bs.find? (·.id = id) with
    | none => simp [hf, throw, throwThe, MonadExceptOf.throw, bind, Except.bind] at h
    | some b₁ =>
      by_cases hlen : maxTreshold ≤ b₁.sstables.length
      · simp only [hf, bind, Except.bind, slicePrefix_of_le hlen] at h
        intro x hx
        obtain ⟨y, hy, n, hxy⟩ := keepPrefixes_buckets h x hx
        rcases mem_insertBucket hy with hy | rfl
        · exact ⟨y, hy, n, hxy⟩
        · exact ⟨b₁, List.mem_of_find?_eq_some hf, min n maxTreshold, by rw [hxy, List.take_take]⟩
      · obtain ⟨e, he⟩ := slicePrefix_of_lt (Nat.not_le.mp hlen)
        simp only [hf, bind, Except.bind, he] at h
        cases h

theorem keptInPlace_buckets : ∀ {D : List (Uuid × List SSTablePath)} {bs : List Bucket},
    ∀ x ∈ keptInPlace bs D, ∃ b ∈ bs, ∃ n, x.sstables = b.sstables.take n
  | [], bs => fun x hx => ⟨x, hx, x.sstables.length, (List.take_length _).symm⟩
  | (id, _) :: rest, bs => fun x hx => by
    rw [keptInPlace] at hx
    cases hf : bs.find? (·.id = id) with
    | none =>
      rw [hf] at hx
      exact ⟨x, hx, x.sstables.length, (List.take_length _).symm⟩
    | some b₁ =>
      by_cases hlen : maxTreshold ≤ b₁.sstables.length
      · simp only [hf, slicePrefix_of_le hlen] at hx
        obtain ⟨y, hy, n, hxy⟩ := keptInPlace_buckets x hx
        rcases mem_insertBucket hy with hy | rfl
        · exact ⟨y, hy, n, hxy⟩
        · exact ⟨b₁, List.mem_of_find?_eq_some hf, min n maxTreshold, by rw [hxy, List.take_take]⟩
      · obtain ⟨e, he⟩ := slicePrefix_of_lt (Nat.not_le.mp hlen)
        simp only [hf, he] at hx
        exact ⟨x, hx, x.sstables.length, (List.take_length _).symm⟩

theorem deleteSstables_buckets {m : BucketMap} {D : List (Uuid × List SSTablePath)}
    {w w' : World} {m' : BucketMap} (h : m.deleteSstables D w = .ok m' w') :
    ∀ x ∈ m'.buckets, ∃ b ∈ m.buckets, ∃ n, x.sstables = b.sstables.take n := by
  unfold BucketMap.deleteSstables at h
  obtain ⟨bs, w₁, hk, h⟩ := bind_eq_ok h
  obtain ⟨u, w₂, -, h⟩ := bind_eq_ok h
  obtain ⟨rfl, -⟩ := pure_eq_ok h
  cases hkp : keepPrefixes m.buckets D with
  | error e =>
    simp [MonadExcept.ofExcept, hkp, throw, throwThe, MonadExceptOf.throw, EStateM.throw] at hk
  | ok bs' =>
    simp only [MonadExcept.ofExcept, hkp, pure, EStateM.pure, EStateM.Result.ok.injEq] at hk
    obtain ⟨rfl, -⟩ := hk
    exact keepPrefixes_buckets hkp

/-- The moves of a run of the bucket map at any clock readings, on any disk and fault schedule:
inserts at a hotness `allowed` admits, `delete_sstables` with any deletion list, and changes of
iteration order. -/
inductive Move (allowed : Nat → Prop) : MapState → MapState → Prop
  | insert (s : MapState) (mt : Memtable) (hotness : Nat) (bucketId : Uuid) (now : Nat) :
      allowed hotness → Move allowed s (s.insert mt hotness bucketId now)
  | reorder (s : MapState) (buckets : List Bucket) :
      buckets.Perm s.map.buckets → Move allowed s (s.reorder buckets)
  | delete (s : MapState) (sstablesToDelete : List (Uuid × List SSTablePath)) :
      Move allowed s (s.delete sstablesToDelete)

/-- Hotness bounded by what follows, and falling, in every bucket. -/
def HotnessFalls (s : MapState) : Prop := ∀ b ∈ s.map.buckets, Bounded b.sstables ∧ Falls b.sstables

theorem hotnessFalls_init (dir : Path) (w : World) (clock : Nat) :
    HotnessFalls (MapState.init dir w clock) := by
  simp [HotnessFalls, MapState.init, BucketMap.new]

theorem hotnessFalls_move {s s' : MapState} (h : HotnessFalls s) (hm : Move (· ≤ 1) s s') :
    HotnessFalls s' := by
  cases hm with
  | insert mt hotness u now hh =>
    intro x hx
    rcases MapState.insert_buckets s mt hotness u now x hx with
      hx | ⟨b, hb, p, hp, hxs⟩ | ⟨p, hp, hxs⟩
    · exact h x hx
    · obtain ⟨hbd, hfl⟩ := h b hb
      rw [hxs]
      exact ⟨hbd.join p, hfl.join fun q hq => by have := hbd.pos q hq; omega⟩
    · rw [hxs]
      exact ⟨⟨by simp [hp], trivial⟩, List.pairwise_singleton _ _⟩
  | reorder buckets hp => exact fun x hx => h x (hp.subset hx)
  | delete D =>
    have htake : ∀ x : Bucket, (∃ b ∈ s.map.buckets, ∃ n, x.sstables = b.sstables.take n) →
        Bounded x.sstables ∧ Falls x.sstables := fun x ⟨b, hb, n, hxs⟩ =>
      hxs ▸ ⟨(h b hb).1.take n, (h b hb).2.take n⟩
    intro x hx
    unfold MapState.delete at hx
    split at hx
    next heq => exact htake x (deleteSstables_buckets heq x hx)
    next => exact htake x (keptInPlace_buckets x hx)

theorem hotnessFalls_reachable {s₀ s : MapState} (h₀ : HotnessFalls s₀)
    (hrun : ReflTransGen (Move (· ≤ 1)) s₀ s) : HotnessFalls s := by
  induction hrun with
  | refl => exact h₀
  | tail _ hm ih => exact hotnessFalls_move ih hm

theorem extractBucketsToCompact_hottest {m : BucketMap} (hf : ∀ b ∈ m.buckets, Falls b.sstables)
    {c : List Bucket} {d : List (Uuid × List SSTablePath)}
    (h : m.extractBucketsToCompact = .ok (c, d)) :
    ∀ x ∈ c, ∃ b ∈ m.buckets, x.id = b.id ∧ x.sstables = b.sstables.take maxTreshold ∧
      ∀ p ∈ x.sstables, ∀ q ∈ b.sstables.drop maxTreshold, q.hotness ≤ p.hotness := by
  obtain ⟨-, rfl, -⟩ := (BucketMap.extractBucketsToCompact_eq_ok_iff m c d).mp h
  intro x hx
  obtain ⟨b, hb, rfl⟩ := List.mem_map.mp hx
  have hb' := (List.mem_filter.mp hb).1
  refine ⟨b, hb', rfl, rfl, fun p hp q hq => ?_⟩
  have hfb := hf b hb'
  rw [Falls, ← List.take_append_drop maxTreshold b.sstables, List.pairwise_append] at hfb
  exact hfb.2.2 p hp q hq

/-- From an empty map, over every run of inserts at hotness at most 1 (`Flusher::flush` inserts
at 1), `delete_sstables` calls with any deletion list and changes of iteration order, at any clock
readings and whatever writes fail: in every bucket each table's hotness exceeds the number of
tables after it and never rises along the list, so every bucket `extract_buckets_to_compact`
hands to compaction holds tables at least as hot as every one it leaves behind. -/
theorem hotness_falls_along_buckets (dir : Path) (w : World) (clock : Nat) {s : MapState}
    (hrun : ReflTransGen (Move (· ≤ 1)) (MapState.init dir w clock) s) :
    (∀ b ∈ s.map.buckets, Bounded b.sstables ∧ Falls b.sstables) ∧
      ∀ c d, s.map.extractBucketsToCompact = .ok (c, d) → ∀ x ∈ c, ∃ b ∈ s.map.buckets,
        x.id = b.id ∧ x.sstables = b.sstables.take maxTreshold ∧
          ∀ p ∈ x.sstables, ∀ q ∈ b.sstables.drop maxTreshold, q.hotness ≤ p.hotness := by
  have h := hotnessFalls_reachable (hotnessFalls_init dir w clock) hrun
  exact ⟨h, fun c d hx => extractBucketsToCompact_hottest (fun b hb => (h b hb).2) hx⟩

theorem hotness_falls_along_buckets_four_flushes :
    ReflTransGen (Move (· ≤ 1)) (MapState.init db ⟨Fs.empty, []⟩ 0) fourFlushes ∧
      fourFlushes.map.buckets.map (fun b => b.sstables.map SSTablePath.hotness) = [[3, 3, 2], [1]] ∧
      (∀ b ∈ fourFlushes.map.buckets, Bounded b.sstables ∧ Falls b.sstables) ∧
        ∀ c d, fourFlushes.map.extractBucketsToCompact = .ok (c, d) → ∀ x ∈ c,
          ∃ b ∈ fourFlushes.map.buckets, x.id = b.id ∧ x.sstables = b.sstables.take maxTreshold ∧
            ∀ p ∈ x.sstables, ∀ q ∈ b.sstables.drop maxTreshold, q.hotness ≤ p.hotness :=
  have hrun : ReflTransGen (Move (· ≤ 1)) (MapState.init db ⟨Fs.empty, []⟩ 0) fourFlushes :=
    .tail (.tail (.tail (.single (.insert _ _ 1 0 1 (le_refl 1))) (.insert _ _ 1 1 2 (le_refl 1)))
      (.insert _ _ 1 2 3 (le_refl 1))) (.insert _ _ 1 3 4 (le_refl 1))
  ⟨hrun, rfl, hotness_falls_along_buckets db _ 0 hrun⟩

end Velarix
