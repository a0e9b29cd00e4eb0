/-
Tasks of a Pool over sequences of calls: `Pool::submit` goes round the
indices below the size whatever else is called, and `Pool::collect` counts
the tasks that are not collected yet over all workers.

That the tasks go round rests on `next`: it is what `last` comes to modulo
the size, before and after the wrap that `submit` makes.
-/
import PmmpThread.Proofs.Pool
import PmmpThread.Proofs.Worker

namespace PmmpThread.Model

open Zend HashTable

namespace Pool

variable {W : Type} {p q : Pool W}

-- ========================================================= round robin

/-- The next index is within the size. -/
theorem next_bounds (hsize : 1 ≤ p.size) (hlast : 0 ≤ p.last) :
    0 ≤ p.next ∧ p.next < p.size := by
  unfold next
  split <;> omega

/-- After an answer the next index is one further round. -/
theorem next_after (hsize : 1 ≤ p.size) (hlast : 0 ≤ p.last)
    (hq : q.size = p.size) (hlast' : q.last = p.next + 1) :
    q.next = (p.next + 1) % p.size := by
  obtain ⟨hn, hlt⟩ := next_bounds hsize hlast
  unfold next at hn hlt ⊢
  rw [hq, hlast']
  by_cases h : p.size ≤ p.next + 1
  · have heq : p.next + 1 = p.size := by
      unfold next at h ⊢
      omega
    rw [if_pos h]
    rw [show (if p.size ≤ p.last then 0 else p.last) + 1 = p.size from heq,
      Int.emod_self]
  · rw [if_neg h]
    unfold next at h ⊢
    exact (Int.emod_eq_of_lt (by omega) (by omega)).symm

theorem taken_answer (n : Int) (threw : Bool) :
    taken (answer n threw) = [n] := by
  cases threw <;> rfl

/-- A call on a pool that keeps its size: a `submit` that comes to a worker
goes to the next index and moves on by one; nothing else moves. -/
theorem submitted_step (hsize : 1 ≤ p.size) (hlast : 0 ≤ p.last)
    {c : Call W} (hc : c.isResize = false) :
    ∃ q, p.step c = some q ∧ q.size = p.size ∧ 0 ≤ q.last
      ∧ (c.submitted p = [] ∧ q.next = p.next
        ∨ c.submitted p = [p.next] ∧ q.next = (p.next + 1) % p.size) := by
  obtain ⟨hn, hlt⟩ := next_bounds hsize hlast
  have hsame : ∀ r : Pool W, r.size = p.size → r.last = p.next →
      r.next = p.next := by
    intro r hr hrlast
    conv_lhs => unfold next
    rw [hr, hrlast, if_neg (by omega)]
  cases c with
  | resize n fuel => cases hc
  | submitTo n threw => exact ⟨_, rfl, rfl, hlast, Or.inl ⟨rfl, rfl⟩⟩
  | shutdown => exact ⟨_, rfl, rfl, hlast, Or.inl ⟨rfl, rfl⟩⟩
  | submit found threw w =>
      simp only [step, Call.submitted, submit]
      cases hfind : p.table.find (.long p.next) with
      | some w' =>
          refine ⟨_, rfl, rfl, by simp only []; omega,
            Or.inr ⟨taken_answer _ _, ?_⟩⟩
          exact next_after hsize hlast rfl rfl
      | none =>
          cases hclazz : p.clazz with
          | none => exact ⟨_, rfl, rfl, hn, Or.inl ⟨rfl, hsame _ rfl rfl⟩⟩
          | some clazz =>
              cases found with
              | true =>
                  refine ⟨_, rfl, rfl, ?_, Or.inr ⟨taken_answer _ _, ?_⟩⟩
                  · simp only [if_true]
                    omega
                  · exact next_after hsize hlast rfl rfl
              | false =>
                  exact ⟨_, rfl, rfl, hn, Or.inl ⟨rfl, hsame _ rfl rfl⟩⟩

theorem submitted_round (calls : List (Call W)) :
    ∀ {p : Pool W}, 1 ≤ p.size → 0 ≤ p.last →
      (∀ c ∈ calls, c.isResize = false) → ∀ (i : Nat) (n : Int),
      (p.submitted calls)[i]? = some n → n = (p.next + i) % p.size := by
  induction calls with
  | nil =>
      intro p _ _ _ i n h
      cases h
  | cons c calls ih =>
      intro p hsize hlast hc i n h
      obtain ⟨q, hq, hqsize, hqlast, hcase⟩ :=
        submitted_step hsize hlast (hc c List.mem_cons_self)
      have hrest := fun c' hc' => hc c' (List.mem_cons_of_mem c hc')
      simp only [submitted, hq, Option.elim_some] at h
      rcases hcase with ⟨hnone, hnext⟩ | ⟨hone, hnext⟩
      · rw [hnone, List.nil_append] at h
        rw [← hnext, ← hqsize]
        exact ih (by omega) hqlast hrest i n h
      · rw [hone, List.singleton_append] at h
        cases i with
        | zero =>
            obtain ⟨hn, hlt⟩ := next_bounds hsize hlast
            rw [List.getElem?_cons_zero] at h
            rw [← Option.some.inj h]
            show p.next = (p.next + 0) % p.size
            rw [Int.add_zero]
            exact (Int.emod_eq_of_lt (by omega) (by omega)).symm
        | succ i =>
            rw [List.getElem?_cons_succ] at h
            rw [ih (by omega) hqlast hrest i n h, hnext, hqsize,
              Int.emod_add_emod]
            congr 1
            push_cast
            omega

theorem usable_run {size : Int} {clazz : String} {calls : List (Call W)}
    (h : (construct size clazz).run calls = some p) : Usable p := by
  refine foldlM_induct (P := Usable) calls (fun _ hu hs => hu.step hs) ?_ h
  exact ⟨rfl, Int.le_refl 0⟩

/-- Tasks go round. In a pool of at least one worker, however it came
about, the `submit` calls that come to a worker, whether or not it throws,
take the indices below its size in turn, starting with the next one, until
its size is changed: `submitTo`, `shutdown` and the calls that find no
class for a worker do not disturb it. -/
theorem submit_goes_round (size : Int) (clazz : String)
    (before : List (Call W)) (p : Pool W)
    (hp : (construct size clazz).run before = some p) (hsize : 1 ≤ p.size)
    (calls : List (Call W)) (hc : ∀ c ∈ calls, c.isResize = false) (i : Nat)
    (n : Int) (hn : (p.submitted calls)[i]? = some n) :
    n = (p.next + i) % p.size :=
  submitted_round calls hsize (usable_run hp).last hc i n hn

/-- A pool of three is made smaller; three tasks then go to its two
workers, the first of which throws. -/
theorem submit_goes_round_afterResize : ∃ p : Pool Nat,
    (construct 3 "Worker").run [.submit true false 1, .submit true false 2,
        .submit true false 3, .resize 2 2] = some p
      ∧ p.submitted [.submit true true 4, .submitTo 5 false,
        .submit true false 6, .submit true false 7] = [0, 1, 0]
      ∧ (0 : Int) = (p.next + 2) % p.size := by
  obtain ⟨p, hp, hsize, hs⟩ : ∃ p : Pool Nat,
      (construct 3 "Worker").run [.submit true false 1,
          .submit true false 2, .submit true false 3, .resize 2 2] = some p
        ∧ 1 ≤ p.size
        ∧ p.submitted [.submit true true 4, .submitTo 5 false,
          .submit true false 6, .submit true false 7] = [0, 1, 0] :=
    ⟨_, rfl, by decide, rfl⟩
  have hc : ∀ c ∈ [Call.submit true true 4, .submitTo 5 false,
      .submit true false 6, .submit true false 7],
      c.isResize = false := by decide
  refine ⟨p, hp, hs, ?_⟩
  exact submit_goes_round 3 "Worker" _ p hp hsize _ hc 2 0 (by rw [hs]; rfl)

-- =========================================================== collecting

/-- Where no monitor was left locked, `Pool::collect` returns how many tasks
of all workers are neither unstacked nor collected when it has been at
each of them; so it returns 0 exactly when no worker has one left. -/
theorem collect_counts (A : Allocator) :
    ∀ workers : List (Life × List Bool),
      (∀ w ∈ workers, Life.Reachable A w.1 ∧ w.1.held = false) →
      ∃ n after, collect workers = some (n, after)
        ∧ after.length = workers.length
        ∧ n = (after.map Life.outstanding).foldr (· + ·) 0 ∧ 0 ≤ n
        ∧ (n = 0 ↔ ∀ s ∈ after, s.outstanding = 0)
  | [], _ => ⟨0, [], rfl, rfl, rfl, Int.le_refl 0, by simp⟩
  | (s, answers) :: workers, h => by
      obtain ⟨hr, hheld⟩ := h (s, answers) List.mem_cons_self
      obtain ⟨x, hi⟩ := hr.workerInv
      obtain ⟨s', x', hs', hi'⟩ := hi.collect answers
      obtain ⟨n, after, hw, hlen, hn, hrest, hzero⟩ := collect_counts A workers
        fun w hw => h w (List.mem_cons_of_mem _ hw)
      have hcount := hi'.count
      have hout : s'.outstanding = s'.inserted.length
          - s'.unstacked.length - s'.collected.length := rfl
      refine ⟨s'.outstanding + n, s' :: after, ?_, by simp [hlen], ?_, by omega,
        ?_⟩
      · simp only [collect, show s.held = false from hheld, hs',
          Option.bind_some, hw, Option.map_some]
        rfl
      · simp [hn]
      · constructor
        · intro h0 u hu
          rcases List.mem_cons.mp hu with rfl | hu
          · omega
          · exact hzero.mp (by omega) u hu
        · intro hall
          have h1 := hall s' List.mem_cons_self
          have h2 := hzero.mpr fun u hu =>
            hall u (List.mem_cons_of_mem _ hu)
          omega

/-- One worker has a task, another one none. -/
theorem collect_counts_oneTask : ∃ s after,
    Life.run .bump (.init true) [.stack 7, .creator] = some s
      ∧ collect [(s, [true]), (.init true, [])] = some (1, after)
      ∧ (1 : Int) = (after.map Life.outstanding).foldr (· + ·) 0 := by
  obtain ⟨s, hs, hheld, hsum⟩ : ∃ s,
      Life.run .bump (.init true) [.stack 7, .creator] = some s
        ∧ s.held = false
        ∧ (collect [(s, [true]), (.init true, [])]).map Prod.fst = some 1 :=
    ⟨_, rfl, rfl, rfl⟩
  have hr : ∀ w ∈ [(s, [true]), (Life.init true, [])],
      Life.Reachable .bump w.1 ∧ w.1.held = false := by
    intro w hw
    rcases List.mem_cons.mp hw with rfl | hw
    · exact ⟨⟨true, _, hs⟩, hheld⟩
    · rcases List.mem_singleton.mp hw with rfl
      exact ⟨⟨true, [], rfl⟩, rfl⟩
  obtain ⟨n, after, hc, -, hn, -⟩ := collect_counts .bump _ hr
  rw [hc] at hsum
  have hone : n = 1 := Option.some.inj hsum
  exact ⟨s, after, hs, hone ▸ hc, hone ▸ hn⟩

end Pool

end PmmpThread.Model
