import Velarix.Flusher
import Velarix.Bucket.Faults

/-! The flush pipeline whatever writes fail: every key handed to a flush stays findable. -/
namespace Velarix
set_option autoImplicit false
open Io SSTable Relation

namespace Engine

/-- The engine with no write scheduled to fail. -/
def clearFaults (e : Engine) : Engine := { e with store := e.store.clearFaults }

/-- The next step of task `id` is a bucket insertion, and it fails before the push. -/
def InsertFails (e : Engine) (id : MemtableId) (u : Uuid) (now : Nat) : Prop :=
  ∃ t, e.tasks id = some t ∧ t.phase = .start ∧ t.table.index.toList ≠ [] ∧
    (∃ b s, t.table.findBiggestKey = .ok b ∧ t.table.findSmallestKey = .ok s) ∧
    e.store.FailsBeforePush t.table 1 u now

theorem clearFaults_advance (e : Engine) (id : MemtableId) (u : Uuid) (now : Nat)
    (h : ¬ e.InsertFails id u now) :
    e.clearFaults.advance id u now = (e.advance id u now).clearFaults := by
  unfold advance
  cases ht : e.tasks id with
  | none => simp only [clearFaults, ht]
  | some t =>
    rw [show e.clearFaults.tasks id = some t from ht]
    dsimp only
    cases hph : t.phase with
    | start =>
      dsimp only
      by_cases hne : t.table.index.toList = []
      · simp only [hne, if_true]
        rfl
      simp only [hne, if_false]
      cases hb : t.table.findBiggestKey <;> cases hs : t.table.findSmallestKey <;> try rfl
      obtain ⟨hcl, hpath⟩ := MapState.clearFaults_insert fun hf => h ⟨t, ht, hph, hne, ⟨_, _, hb, hs⟩, hf⟩
      dsimp only
      rw [show e.clearFaults.store = e.store.clearFaults from rfl, hpath, hcl]
      split <;> rfl
    | _ => rfl

theorem advance_of_insert_error {e : Engine} {id : MemtableId} {t : Task} {u now : Nat}
    (ht : e.tasks id = some t) (hst : t.phase = .start) (hne : t.table.index.toList ≠ [])
    {b s : Key} (hb : t.table.findBiggestKey = .ok b) (hs : t.table.findSmallestKey = .ok s)
    (h : e.store.insertedPath t.table 1 u now = none) :
    e.advance id u now = { e.setPhase id t .failed with store := e.store.insert t.table 1 u now } := by
  unfold advance
  simp only [ht, hst, hne, if_false, hb, hs, h]

theorem Consistent.advance_whatever_fails {e : Engine} (h : e.clearFaults.Consistent)
    (id : MemtableId) (u : Uuid) {now : Nat} (hnow : e.store.clock < now) :
    (e.advance id u now).clearFaults.Consistent := by
  by_cases hfails : e.InsertFails id u now
  · obtain ⟨t, ht, hst, hne, ⟨b, s, hb, hs⟩, hf⟩ := hfails
    obtain ⟨err, w', hins, heq⟩ := MapState.insert_of_failsBeforePush hf
    rw [advance_of_insert_error ht hst hne hb hs hf.1, heq]
    have hok := h.tasks id t ht
    have hstamps := (e.store.map.insertToAppropriateBucket_stamps t.table 1 u now).of_error hins
    exact h.step ht rfl
      (h.separated.insert_failed hnow
        ((e.store.map.insertToAppropriateBucket_grows t.table 1 u now).of_error hins) hstamps)
      (h.settled.of_held rfl (h.separated.held_of_stamps hnow hstamps))
      (fun x hx _ => hx) (fun q hq => ⟨hq, rfl⟩) (fun x hx _ => hx) (fun b hb => hb)
      { registered := fun _ => hok.registered (by simp [hst, Phase.stage])
        keys := fun _ _ _ h => by cases h
        written := fun _ h => by cases h
        ranged := fun _ h => by cases h
        pushed := fun _ h => by cases h }
      (fun _ hp => by cases hp)
  · rw [← e.clearFaults_advance id u now hfails]
    exact h.advance id u hnow

theorem Consistent.clearFaults_of_reachable {e₀ e : Engine} (h₀ : e₀.clearFaults.Consistent)
    (hrun : ReflTransGen (Step (· < ·)) e₀ e) : e.clearFaults.Consistent := by
  induction hrun with
  | refl => exact h₀
  | tail _ hstep ih =>
    cases hstep with
    | advance id u now hnow => exact ih.advance_whatever_fails id u hnow

end Engine

/-- From an empty engine whose registry holds the memtables to flush, a task started for each, on
a disk where no file is named by a clock reading later than the first, whichever writes fail:
in every state that interleavings of the tasks' steps reach with strictly increasing clock
readings, every key of every memtable handed to a flush is in a memtable still registered, or
within the range KeyRange records for a data file whose bloom filter holds it and whose file holds
the memtable's table; and every flush that failed left its memtable in the registry. -/
theorem flushed_keys_stay_findable_whatever_fails (dir : Path) {w : World} {clock : Nat}
    (hfresh : ∀ q t, q.stamp = some t → clock < t → w.fs.files q = none)
    (tables : List (MemtableId × Memtable)) {e : Engine}
    (hrun : ReflTransGen (Engine.Step (· < ·)) (Engine.init dir w clock tables) e) :
    (∀ id t, e.tasks id = some t → ∀ k ∈ t.table.keys, e.Findable t.table k) ∧
      ∀ id t, e.tasks id = some t → t.phase = .failed → (id, t.table) ∈ e.readOnlyMemtables :=
  have h₀ : (Engine.init dir w clock tables).clearFaults.Consistent :=
    @Engine.Consistent.init dir ⟨w.fs, []⟩ clock rfl hfresh tables
  have h := h₀.clearFaults_of_reachable hrun
  ⟨fun id t ht _ hk => (h.tasks id t ht).findable h.separated h.settled hk,
    fun id t ht hf => (h.tasks id t ht).registered (by simp [hf, Phase.stage])⟩

/-- Two flushes onto an empty disk whose first write fails: the first task's insertion, then the
second task's five steps. -/
def flushesAfterFailedWrite : Engine :=
  (Engine.init db ⟨Fs.empty, [some 0]⟩ 0 twoTables).runSchedule
    (([1], 0) :: List.replicate 5 ([2], 1))

/-- The first flush fails and its memtable stays registered; the second runs to its end. -/
theorem flushed_keys_stay_findable_after_failed_write :
    ReflTransGen (Engine.Step (· < ·)) (Engine.init db ⟨Fs.empty, [some 0]⟩ 0 twoTables)
        flushesAfterFailedWrite ∧
      (flushesAfterFailedWrite.tasks [1]).map (·.phase) = some .failed ∧
      (flushesAfterFailedWrite.tasks [2]).map (·.phase.stage) = some 5 ∧
      flushesAfterFailedWrite.readOnlyMemtables.map (·.1) = [[1]] ∧
      ((∀ id t, flushesAfterFailedWrite.tasks id = some t → ∀ k ∈ t.table.keys,
          flushesAfterFailedWrite.Findable t.table k) ∧
        ∀ id t, flushesAfterFailedWrite.tasks id = some t → t.phase = .failed →
          (id, t.table) ∈ flushesAfterFailedWrite.readOnlyMemtables) :=
  have hrun := Engine.reachable_runSchedule (Engine.init db ⟨Fs.empty, [some 0]⟩ 0 twoTables)
    (([1], 0) :: List.replicate 5 ([2], 1))
  ⟨hrun, by decide, by decide, by decide,
    flushed_keys_stay_findable_whatever_fails db (fun _ _ _ _ => rfl) twoTables hrun⟩

end Velarix
