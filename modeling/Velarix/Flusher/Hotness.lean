import Velarix.Flusher
import Velarix.Bucket.Hotness

/-! The hotness the flush's bloom filters carry: always 1, so the sort by hotness keeps the order
they were pushed in. -/
namespace Velarix
set_option autoImplicit false
open Io SSTable Relation

theorem sortByHotness_of_hotness_eq {n : Nat} : ∀ {l : List BloomFilter},
    (∀ b ∈ l, b.hotness = n) → sortByHotness l = l
  | [], _ => rfl
  | b :: bs, h => by
    rw [sortByHotness, sortByHotness_of_hotness_eq fun c hc => h c (List.mem_cons_of_mem _ hc)]
    cases bs with
    | nil => rfl
    | cons c cs =>
      rw [insertByHotness, if_pos (by rw [h c (by simp), h b (List.mem_cons_self _ _)])]

theorem MapState.insertedPath_hotness {s : MapState} {mt : Memtable} {u now : Nat}
    {p : SSTablePath} (h : s.insertedPath mt 1 u now = some p) : p.hotness = 1 := by
  unfold MapState.insertedPath at h
  split at h <;> cases h
  next heq => exact (insertToAppropriateBucket_hotness heq).elim id id

namespace Engine

/-- Every filter pushed, and every path a task holds, carries hotness 1. -/
structure HotnessOne (e : Engine) : Prop where
  filters : ∀ b ∈ e.bloomFilters, b.hotness = 1
  paths : ∀ id t p, e.tasks id = some t → t.phase.path = some p → p.hotness = 1

theorem hotnessOne_init (dir : Path) (w : World) (clock : Nat)
    (tables : List (MemtableId × Memtable)) : (Engine.init dir w clock tables).HotnessOne := by
  refine ⟨fun _ hb => (by cases hb), fun id t p ht hp => ?_⟩
  obtain ⟨x, -, rfl⟩ := Option.map_eq_some'.mp ht
  cases hp

theorem HotnessOne.advance {e : Engine} (h : e.HotnessOne) (id : MemtableId) (u : Uuid)
    (now : Nat) : (e.advance id u now).HotnessOne := by
  obtain ⟨hb, ht⟩ := h
  have hset : ∀ t phase, (∀ p, phase.path = some p → p.hotness = 1) →
      ∀ id' t' p, (e.setPhase id t phase).tasks id' = some t' → t'.phase.path = some p →
        p.hotness = 1 := fun t phase hph id' t' p h' hp => by
    rcases setPhase_tasks h' with ⟨rfl, rfl⟩ | ⟨-, h'⟩
    · exact hph p hp
    · exact ht id' t' p h' hp
  have hfailed : ∀ p, Phase.failed.path = some p → p.hotness = 1 := fun _ h => by cases h
  unfold Engine.advance
  split
  · exact ⟨hb, ht⟩
  next t htk =>
  have hsame : ∀ phase : Phase, phase.path = t.phase.path → ∀ p, phase.path = some p →
      p.hotness = 1 := fun _ he p hp => ht id t p htk (he ▸ hp)
  split
  · split
    · exact ⟨hb, hset t _ hfailed⟩
    split
    · split
      · next p hp =>
        exact ⟨hb, hset t _ fun p' hp' => by cases hp'; exact MapState.insertedPath_hotness hp⟩
      · exact ⟨hb, hset t _ hfailed⟩
    · exact ⟨hb, hset t _ hfailed⟩
  · next p s b hph => exact ⟨hb, hset t _ (hsame _ (by rw [hph]; rfl))⟩
  · next p hph =>
    refine ⟨fun b hb' => ?_, hset t _ (hsame _ (by rw [hph]; rfl))⟩
    rcases List.mem_append.mp hb' with hb' | hb'
    · exact hb b hb'
    · rw [List.mem_singleton.mp hb']
      exact hsame _ rfl p (by rw [hph]; rfl)
  · next p hph =>
    exact ⟨fun b hb' => hb b ((perm_sortByHotness _).subset hb'),
      hset t _ (hsame _ (by rw [hph]; rfl))⟩
  · next p hph => exact ⟨hb, hset t _ (hsame _ (by rw [hph]; rfl))⟩
  · exact ⟨hb, ht⟩
  · exact ⟨hb, ht⟩

theorem HotnessOne.of_reachable {tick : Nat → Nat → Prop} {e₀ e : Engine} (h₀ : e₀.HotnessOne)
    (hrun : ReflTransGen (Step tick) e₀ e) : e.HotnessOne := by
  induction hrun with
  | refl => exact h₀
  | tail _ hstep ih =>
    cases hstep with
    | advance id u now _ => exact ih.advance id u now

end Engine

/-- From an empty engine, in every state that interleavings of the flush tasks reach, at any clock
readings and whichever writes fail, every bloom filter in the list holds a copy of hotness 1, so
the sort by hotness after each push leaves the list as it is: the filters stay in the order they
were pushed. -/
theorem bloomFilters_keep_push_order (dir : Path) (w : World) (clock : Nat)
    (tables : List (MemtableId × Memtable)) {tick : Nat → Nat → Prop} {e : Engine}
    (hrun : ReflTransGen (Engine.Step tick) (Engine.init dir w clock tables) e) :
    (∀ b ∈ e.bloomFilters, b.hotness = 1) ∧ sortByHotness e.bloomFilters = e.bloomFilters :=
  have h := (Engine.hotnessOne_init dir w clock tables).of_reachable hrun
  ⟨h.filters, sortByHotness_of_hotness_eq h.filters⟩

theorem bloomFilters_keep_push_order_three_flushes :
    ReflTransGen (Engine.Step (· < ·)) (Engine.init db ⟨Fs.empty, []⟩ 0 threeTables)
        threeFlushes ∧
      (∀ b ∈ threeFlushes.bloomFilters, b.hotness = 1) ∧
      sortByHotness threeFlushes.bloomFilters = threeFlushes.bloomFilters :=
  have hrun := Engine.reachable_runSchedule (Engine.init db ⟨Fs.empty, []⟩ 0 threeTables)
    (List.replicate 5 ([1], 0) ++ List.replicate 5 ([2], 1) ++ List.replicate 5 ([3], 2))
  ⟨hrun, bloomFilters_keep_push_order db _ 0 threeTables hrun⟩

end Velarix
