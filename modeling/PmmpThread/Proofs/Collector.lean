/-
Which tasks a collect removes when its collector calls back.

As long as no collector that answers yes has removed a task while it ran,
the item the loop holds is still the head of the queue, and what is
removed is the task that was asked about (`Went`). As soon as one has, the
loop goes on from an item that is gone and shifts the next task off the
queue, which no collector has accepted, or shifts an empty queue (`Bad`).
Nothing that happens later can mend either.

Stacking and unstacking are about the other queue.
-/
import PmmpThread.Model.Collector
import PmmpThread.Proofs.Worker

namespace PmmpThread.Model

open Zend Dlist

variable {A : Allocator} {d d' : WorkerData} {x x' x'' : Places}
  {log log' : List Event} {l l' l'' : List Task} {t : Task}

-- ================================================================= logs

/-- The gc queue has the tasks `l` before and `l'` after what the log
says, and a collector is called with the head only. -/
inductive Tracks : List Task → List Event → List Task → Prop
  | nil (l : List Task) : Tracks l [] l
  | asked {t : Task} {l l' : List Task} {log : List Event} :
      Tracks (t :: l) log l' → Tracks (t :: l) (.asked t :: log) l'
  | accepted {t : Task} {l l' : List Task} {log : List Event} :
      Tracks l log l' → Tracks l (.accepted t :: log) l'
  | removed {t : Task} {l l' : List Task} {log : List Event} :
      Tracks l log l' → Tracks (t :: l) (.removed (some t) :: log) l'

/-- Every task removed has been accepted before. -/
def Answered (log : List Event) : Prop :=
  ∀ l₁ t l₂, log = l₁ ++ .removed (some t) :: l₂ → .accepted t ∈ l₁

/-- A task removed is not looked at again. -/
def NotAgain (log : List Event) : Prop :=
  ∀ l₁ t l₂, log = l₁ ++ .removed (some t) :: l₂ → .asked t ∉ l₂

/-- A task of `l` is removed that has not been accepted before, or a shift
finds the queue empty. -/
def Bad (l : List Task) (log : List Event) : Prop :=
  (∃ l₁ t l₂, log = l₁ ++ .removed (some t) :: l₂
      ∧ .accepted t ∉ l₁ ∧ t ∈ l)
    ∨ .removed none ∈ log

@[simp] theorem removedTasks_nil : removedTasks [] = [] := rfl

@[simp] theorem removedTasks_append (log log' : List Event) :
    removedTasks (log ++ log') = removedTasks log ++ removedTasks log' :=
  List.filterMap_append

@[simp] theorem removedTasks_asked (t : Task) (log : List Event) :
    removedTasks (.asked t :: log) = removedTasks log := rfl

@[simp] theorem removedTasks_accepted (t : Task) (log : List Event) :
    removedTasks (.accepted t :: log) = removedTasks log := rfl

@[simp] theorem removedTasks_removed (t : Task) (log : List Event) :
    removedTasks (.removed (some t) :: log) = t :: removedTasks log := rfl

@[simp] theorem removedTasks_none (log : List Event) :
    removedTasks (.removed none :: log) = removedTasks log := rfl

@[simp] theorem rounds_append (log log' : List Event) :
    rounds (log ++ log') = rounds log + rounds log' := by
  unfold rounds
  rw [List.filter_append, List.length_append]

@[simp] theorem rounds_nil : rounds [] = 0 := rfl

@[simp] theorem rounds_asked (t : Task) (log : List Event) :
    rounds (.asked t :: log) = rounds log := rfl

@[simp] theorem rounds_accepted (t : Task) (log : List Event) :
    rounds (.accepted t :: log) = rounds log := rfl

@[simp] theorem rounds_removed (t : Option Task) (log : List Event) :
    rounds (.removed t :: log) = rounds log + 1 := rfl

theorem removed_le_rounds (log : List Event) :
    (removedTasks log).length ≤ rounds log := by
  induction log with
  | nil => exact Nat.le_refl 0
  | cons e log ih =>
      cases e with
      | asked u => exact ih
      | accepted u => exact ih
      | removed u =>
          cases u with
          | none => exact Nat.le_succ_of_le ih
          | some u => exact Nat.succ_le_succ ih

/-- Fewer tasks than rounds where a shift found nothing. -/
theorem removed_lt_rounds (h : .removed none ∈ log) :
    (removedTasks log).length < rounds log := by
  obtain ⟨l₁, l₂, rfl⟩ := List.append_of_mem h
  have h₁ := removed_le_rounds l₁
  have h₂ := removed_le_rounds l₂
  simp only [removedTasks_append, rounds_append, rounds_removed,
    removedTasks_none, List.length_append]
  omega

namespace Tracks

theorem append (h : Tracks l log l') (h' : Tracks l' log' l'') :
    Tracks l (log ++ log') l'' := by
  induction h with
  | nil l => exact h'
  | asked _ ih => exact .asked (ih h')
  | accepted _ ih => exact .accepted (ih h')
  | removed _ ih => exact .removed (ih h')

/-- The tasks removed are the first ones of the queue, in order. -/
theorem removed_eq (h : Tracks l log l') : l = removedTasks log ++ l' := by
  induction h with
  | nil l => rfl
  | asked _ ih => exact ih
  | accepted _ ih => exact ih
  | removed _ ih =>
      rw [removedTasks_removed, List.cons_append, ← ih]

theorem asked_mem (h : Tracks l log l') (ha : .asked t ∈ log) : t ∈ l := by
  induction h with
  | nil l => cases ha
  | asked _ ih =>
      rcases List.mem_cons.mp ha with he | ha
      · injection he with he
        exact he ▸ List.mem_cons_self
      · exact ih ha
  | accepted _ ih =>
      rcases List.mem_cons.mp ha with he | ha
      · cases he
      · exact ih ha
  | removed _ ih =>
      rcases List.mem_cons.mp ha with he | ha
      · cases he
      · exact List.mem_cons_of_mem _ (ih ha)

theorem rounds_eq (h : Tracks l log l') :
    rounds log = (removedTasks log).length := by
  induction h with
  | nil l => rfl
  | asked _ ih => exact ih
  | accepted _ ih => exact ih
  | removed _ ih =>
      rw [rounds_removed, ih]
      rfl

/-- After a removal come the tasks behind it only. -/
theorem notAgain (h : Tracks l log l') (hnd : l.Nodup) : NotAgain log := by
  induction h with
  | nil l =>
      intro l₁ t l₂ he
      exact absurd he (by simp)
  | asked _ ih =>
      intro l₁ t l₂ he
      cases l₁ with
      | nil => cases he
      | cons e l₁ =>
          injection he with _ he
          exact ih hnd l₁ t l₂ he
  | accepted _ ih =>
      intro l₁ t l₂ he
      cases l₁ with
      | nil => cases he
      | cons e l₁ =>
          injection he with _ he
          exact ih hnd l₁ t l₂ he
  | removed htail ih =>
      intro l₁ t l₂ he
      obtain ⟨hno, hnd⟩ := List.nodup_cons.mp hnd
      cases l₁ with
      | nil =>
          injection he with he hl
          injection he with he
          injection he with he
          rw [← hl, ← he]
          exact fun ha => hno (htail.asked_mem ha)
      | cons e l₁ =>
          injection he with _ he
          exact ih hnd l₁ t l₂ he

end Tracks

theorem Answered.append (h : Answered log) (h' : Answered log') :
    Answered (log ++ log') := by
  intro l₁ t l₂ he
  rcases List.append_eq_append_iff.mp he with ⟨m, rfl, hm⟩ | ⟨m, hm, htail⟩
  · exact List.mem_append_right _ (h' m t l₂ hm)
  · cases m with
    | nil => exact absurd (h' [] t l₂ htail.symm) List.not_mem_nil
    | cons e m =>
        injection htail with he' _
        rw [← he'] at hm
        exact h l₁ t m hm

/-- Later events do not mend it. -/
theorem Bad.append_right (h : Bad l log) (log' : List Event) :
    Bad l (log ++ log') := by
  rcases h with ⟨l₁, t, l₂, rfl, hno, hmem⟩ | h
  · refine Or.inl ⟨l₁, t, l₂ ++ log', ?_, hno, hmem⟩
    rw [List.append_assoc, List.cons_append]
  · exact Or.inr (List.mem_append_left _ h)

/-- Every task accepted has been removed. -/
def Taken (log : List Event) : Prop :=
  ∀ t, .accepted t ∈ log → t ∈ removedTasks log

/-- Nor do earlier ones, if what they accepted was removed. -/
theorem Bad.append_left (ht : Tracks l log l') (hacc : Taken log)
    (hnd : l.Nodup) (h : Bad l' log') : Bad l (log ++ log') := by
  have heq := ht.removed_eq
  rcases h with ⟨l₁, t, l₂, rfl, hno, hmem⟩ | h
  · refine Or.inl ⟨log ++ l₁, t, l₂, (List.append_assoc ..).symm, ?_, ?_⟩
    · rw [List.mem_append, not_or]
      refine ⟨fun ha => ?_, hno⟩
      rw [heq] at hnd
      exact (List.nodup_append.mp hnd).2.2 t (hacc t ha) t hmem rfl
    · rw [heq]
      exact List.mem_append_right _ hmem
  · exact Or.inr (List.mem_append_right _ h)

-- ========================================================== good stretches

/-- The log is what happened to the gc queue of `x` on the way to `x'`. -/
structure Went (x : Places) (log : List Event) (x' : Places) : Prop where
  tracks : Tracks (vals x.gc) log (vals x'.gc)
  drop : x'.gc = x.gc.drop (removedTasks log).length
  answered : Answered log
  taken : Taken log

theorem went_nil (h : x'.gc = x.gc) : Went x [] x' where
  tracks := by
    rw [h]
    exact .nil _
  drop := h
  answered l₁ t l₂ he := absurd he (by simp)
  taken t ha := by cases ha

theorem Went.trans (h : Went x log x') (h' : Went x' log' x'') :
    Went x (log ++ log') x'' where
  tracks := h.tracks.append h'.tracks
  drop := by
    rw [h'.drop, h.drop, List.drop_drop, removedTasks_append,
      List.length_append]
  answered := h.answered.append h'.answered
  taken t ha := by
    rw [removedTasks_append, List.mem_append]
    exact (List.mem_append.mp ha).imp (h.taken t) (h'.taken t)

theorem Went.length (h : Went x log x') :
    x.gc.length = (removedTasks log).length + x'.gc.length := by
  have := congrArg List.length h.tracks.removed_eq
  rw [List.length_append, vals_length, vals_length] at this
  exact this

theorem Went.nodup (h : Went x log x') (hnd : (vals x.gc).Nodup) :
    (vals x'.gc).Nodup := by
  rw [h.tracks.removed_eq] at hnd
  exact (List.nodup_append.mp hnd).2.1

/-- A stretch that removes nothing leaves the items where they are. -/
theorem Went.gc_eq (h : Went x log x') (hl : x'.gc.length = x.gc.length) :
    x'.gc = x.gc := by
  have hlen := h.length
  have hzero : (removedTasks log).length = 0 := by omega
  rw [h.drop, hzero, List.drop_zero]

/-- The head is asked about. -/
theorem went_asked {e : Nat × Task} {g : List (Nat × Task)}
    (hx : x.gc = e :: g) : Went x [.asked e.2] x where
  tracks := by
    rw [hx]
    exact .asked (.nil _)
  drop := rfl
  answered l₁ t l₂ he := by
    cases l₁ with
    | nil => cases he
    | cons f l₁ =>
        injection he with _ he
        exact absurd he (by simp)
  taken t ha := by
    rw [List.mem_singleton] at ha
    cases ha

/-- The head is accepted and removed. -/
theorem went_accepted {e : Nat × Task} {g : List (Nat × Task)}
    (hx : x.gc = e :: g) :
    Went x [.accepted e.2, .removed (some e.2)] { x with gc := g } where
  tracks := by
    rw [hx]
    exact .accepted (.removed (.nil _))
  drop := by
    rw [hx]
    rfl
  answered l₁ t l₂ he := by
    cases l₁ with
    | nil => cases he
    | cons f l₁ =>
        injection he with hf he
        cases l₁ with
        | nil =>
            injection he with he _
            injection he with he
            injection he with he
            rw [← hf, he]
            exact List.mem_cons_self
        | cons f' l₁ =>
            injection he with _ he
            exact absurd he (by simp)
  taken t ha := by
    rcases List.mem_cons.mp ha with he | ha
    · injection he with he
      rw [he]
      exact List.mem_singleton_self _
    · rw [List.mem_singleton] at ha
      cases ha

-- ============================================================= counting

mutual
/-- `tasks_collected` grows by the number of rounds, whatever happens. -/
theorem Calls.run_rounds (A : Allocator) :
    (calls : Calls) → ∀ (d d' : WorkerData) (log : List Event),
      calls.run A d = some (log, d') →
      d'.tasksCollected = d.tasksCollected + rounds log
  | .done => by
      intro d d' log h
      obtain ⟨rfl, rfl⟩ := Prod.mk.inj (Option.some.inj h)
      rfl
  | .stack v rest => by
      intro d d' log h
      rw [Calls.run] at h
      obtain ⟨r, hr, h⟩ := Option.bind_eq_some_iff.mp h
      obtain ⟨q, -, rfl⟩ := Option.map_eq_some_iff.mp hr
      have h₁ := Calls.run_rounds A rest _ _ _ h
      exact h₁
  | .unstack rest => by
      intro d d' log h
      rw [Calls.run] at h
      obtain ⟨r, hr, h⟩ := Option.bind_eq_some_iff.mp h
      obtain ⟨q, -, rfl⟩ := Option.map_eq_some_iff.mp hr
      have h₁ := Calls.run_rounds A rest _ _ _ h
      exact h₁
  | .collect c rest => by
      intro d d' log h
      rw [Calls.run] at h
      obtain ⟨r, hr, h⟩ := Option.bind_eq_some_iff.mp h
      obtain ⟨s, hs, h⟩ := Option.map_eq_some_iff.mp h
      obtain ⟨rfl, rfl⟩ := Prod.mk.inj h
      have h₁ := Collector.loop_rounds A c _ _ r.2.2 r.2.1 r.1 hr
      have h₂ := Calls.run_rounds A rest _ _ _ hs
      rw [h₂, rounds_append]
      show r.2.2.tasksCollected + r.2.1 + rounds s.1 = _
      omega

theorem Collector.loop_rounds (A : Allocator) :
    (c : Collector) → ∀ (item : Option Nat) (d d' : WorkerData) (k : Nat)
      (log : List Event), c.loop A item d = some (log, k, d') →
      d'.tasksCollected + k = d.tasksCollected + rounds log
  | .done => by
      intro item d d' k log h
      rw [Collector.loop] at h
      obtain ⟨rfl, hk⟩ := Prod.mk.inj (Option.some.inj h)
      obtain ⟨rfl, rfl⟩ := Prod.mk.inj hk
      rfl
  | .ask during answer rest => by
      intro item d d' k log h
      cases item with
      | none =>
          rw [Collector.loop] at h
          obtain ⟨rfl, hk⟩ := Prod.mk.inj (Option.some.inj h)
          obtain ⟨rfl, rfl⟩ := Prod.mk.inj hk
          rfl
      | some a =>
          rw [Collector.loop] at h
          obtain ⟨n, -, h⟩ := Option.bind_eq_some_iff.mp h
          obtain ⟨r, hr, h⟩ := Option.bind_eq_some_iff.mp h
          have h₁ := Calls.run_rounds A during _ _ _ hr
          cases answer with
          | false =>
              obtain ⟨rfl, hk⟩ := Prod.mk.inj (Option.some.inj h)
              obtain ⟨rfl, rfl⟩ := Prod.mk.inj hk
              exact h₁
          | true =>
              rw [if_pos rfl] at h
              obtain ⟨m, -, h⟩ := Option.bind_eq_some_iff.mp h
              obtain ⟨q, -, h⟩ := Option.bind_eq_some_iff.mp h
              obtain ⟨s, hs, h⟩ := Option.map_eq_some_iff.mp h
              obtain ⟨rfl, hk⟩ := Prod.mk.inj h
              obtain ⟨rfl, rfl⟩ := Prod.mk.inj hk
              have h₂ := Collector.loop_rounds A rest _ _ s.2.2 s.2.1 s.1 hs
              change _ = r.2.tasksCollected + rounds s.1 at h₂
              simp only [rounds_append, rounds_asked, rounds_accepted,
                rounds_removed]
              omega
end

-- ================================================================ runs

/-- What a run does from well-formed data: calm, it goes through and
removes what it accepts; otherwise, if it goes through, its log is bad. -/
structure Ends (x : Places) (calm : Prop) (left : Nat)
    (run : Option (List Event × WorkerData)) : Prop where
  good : calm → ∃ log d' x', run = some (log, d') ∧ Rep d' x'
    ∧ x'.gc.length = left ∧ Went x log x'
  bad : ¬ calm → ∀ log d', run = some (log, d') → Bad (vals x.gc) log

/-- The data of a loop, without its count. -/
def uncounted (r : Option (List Event × Nat × WorkerData)) :
    Option (List Event × WorkerData) :=
  r.map fun r => (r.1, r.2.2)

theorem Ends.empty (hr : Rep d x) : Ends x True x.gc.length (some ([], d)) where
  good _ := ⟨[], d, x, rfl, hr, rfl, went_nil rfl⟩
  bad hc := absurd trivial hc

theorem Ends.stacked {x' : Places} {calm : Prop} {left : Nat}
    {run : Option (List Event × WorkerData)} (h : Ends x' calm left run)
    (hgc : x'.gc = x.gc) : Ends x calm left run where
  good hc := by
    obtain ⟨log, d', x'', hr, hrep, hlen, hwent⟩ := h.good hc
    exact ⟨log, d', x'', hr, hrep, hlen, (went_nil hgc).trans hwent⟩
  bad hc log d' hr := hgc ▸ h.bad hc log d' hr

/-- A good stretch before a run. -/
theorem Ends.after {x₁ : Places} {calm : Prop} {left : Nat}
    {run : Option (List Event × WorkerData)} (h : Ends x₁ calm left run)
    (hw : Went x log x₁) (hnd : (vals x.gc).Nodup) :
    Ends x calm left (run.map fun s => (log ++ s.1, s.2)) where
  good hc := by
    obtain ⟨log', d', x', rfl, hrep, hlen, hwent⟩ := h.good hc
    exact ⟨_, d', x', rfl, hrep, hlen, hw.trans hwent⟩
  bad hc log' d' hr := by
    obtain ⟨s, hs, hr⟩ := Option.map_eq_some_iff.mp hr
    obtain ⟨rfl, rfl⟩ := Prod.mk.inj hr
    exact Bad.append_left hw.tracks hw.taken hnd (h.bad hc s.1 s.2 hs)

/-- One run after another. -/
theorem Ends.bind {calm calm' : Prop} {left left' : Nat}
    {run : Option (List Event × WorkerData)}
    {next : WorkerData → Option (List Event × WorkerData)}
    (h : Ends x calm left run) (hnd : (vals x.gc).Nodup)
    (hnext : ∀ log d' x', Went x log x' → Rep d' x' → x'.gc.length = left →
      Ends x' calm' left' (next d')) :
    Ends x (calm ∧ calm') left'
      (run.bind fun r => (next r.2).map fun s => (r.1 ++ s.1, s.2)) where
  good := by
    rintro ⟨hc, hc'⟩
    obtain ⟨log, d', x', rfl, hrep, hlen, hwent⟩ := h.good hc
    exact ((hnext log d' x' hwent hrep hlen).after hwent hnd).good hc'
  bad hc log' d' hr := by
    obtain ⟨r, hrun, hr⟩ := Option.bind_eq_some_iff.mp hr
    by_cases hcalm : calm
    · obtain ⟨log, d₁, x₁, hrun', hrep, hlen, hwent⟩ := h.good hcalm
      rw [hrun] at hrun'
      obtain rfl := Option.some.inj hrun'
      have hnot : ¬ calm' := fun hc' => hc ⟨hcalm, hc'⟩
      exact ((hnext _ _ _ hwent hrep hlen).after hwent hnd).bad hnot _ _ hr
    · obtain ⟨s, -, hr⟩ := Option.map_eq_some_iff.mp hr
      obtain ⟨rfl, rfl⟩ := Prod.mk.inj hr
      exact (h.bad hcalm _ _ hrun).append_right _

theorem Rep.counted {r : List Event × Nat × WorkerData} {x : Places}
    (h : Rep r.2.2 x) : Rep (counted r).2 x := { h with }

/-- The count is no part of the queues. -/
theorem Ends.counted {calm : Prop} {left : Nat}
    {r : Option (List Event × Nat × WorkerData)}
    (h : Ends x calm left (uncounted r)) : Ends x calm left (r.map counted) where
  good hc := by
    obtain ⟨log, d', x', hr, hrep, hlen, hwent⟩ := h.good hc
    obtain ⟨s, rfl, hs⟩ := Option.map_eq_some_iff.mp hr
    obtain ⟨rfl, rfl⟩ := Prod.mk.inj hs
    exact ⟨s.1, _, x', rfl, hrep.counted, hlen, hwent⟩
  bad hc log d' hr := by
    obtain ⟨s, rfl, hs⟩ := Option.map_eq_some_iff.mp hr
    obtain ⟨rfl, rfl⟩ := Prod.mk.inj hs
    exact h.bad hc s.1 s.2.2 rfl

-- ============================================================ one round

/-- The rest of a round, and of the loop, after the collector has answered
yes for the item `e`. -/
def Collector.goOn (A : Allocator) (rest : Collector) (e : Nat × Task)
    (d : WorkerData) : Option (List Event × WorkerData) :=
  (d.items.get e.1).bind fun m =>
    (Queue.shift d.items d.gc true).bind fun q =>
      (uncounted (rest.loop A m.next
        { d with items := q.2.1, gc := q.2.2 })).map fun s =>
          (.accepted e.2 :: .removed q.1 :: s.1, s.2)

/-- A round of the loop, from the head of the queue. -/
theorem loop_head {e : Nat × Task} {g : List (Nat × Task)} (hr : Rep d x)
    (hx : x.gc = e :: g) (during : Calls) (answer : Bool)
    (rest : Collector) :
    uncounted ((Collector.ask during answer rest).loop A d.gc.head d)
      = (if answer then (during.run A d).bind fun r =>
          (rest.goOn A e r.2).map fun s => (r.1 ++ s.1, s.2)
        else during.run A d).map fun s => ([.asked e.2] ++ s.1, s.2) := by
  have hhead : d.gc.head = some e.1 := by
    rw [hr.gc.head, hx]
    rfl
  obtain ⟨n, hn, hv⟩ := hr.gc.mem (e := e) (by rw [hx]; simp)
  rw [hhead, Collector.loop, hn, Option.bind_some, hv]
  cases hrun : during.run A d with
  | none => cases answer <;> rfl
  | some r =>
      cases answer with
      | false => rfl
      | true =>
          simp only [Option.bind_some, if_true, Collector.goOn, uncounted]
          cases r.2.items.get e.1 with
          | none => rfl
          | some m =>
              simp only [Option.bind_some]
              cases Queue.shift r.2.items r.2.gc true with
              | none => rfl
              | some q =>
                  simp only [Option.bind_some, Option.map_map]
                  rfl

/-- The task asked about is still at the head: it is removed, and the loop
goes on from the item that is then at the head. -/
theorem goOn_head {e : Nat × Task} {g : List (Nat × Task)} (hr : Rep d x)
    (hx : x.gc = e :: g) (rest : Collector) :
    ∃ d', Rep d' { x with gc := g }
      ∧ rest.goOn A e d = (uncounted (rest.loop A d'.gc.head d')).map fun s =>
        ([.accepted e.2, .removed (some e.2)] ++ s.1, s.2) := by
  obtain ⟨m, h', q', hm, hnext, hs, hrep'⟩ := WorkerData.shiftGc_spec hr hx
  have hq : m.next = q'.head := by
    rw [hnext]
    exact hrep'.gc.head.symm
  refine ⟨_, hrep', ?_⟩
  unfold Collector.goOn
  rw [hm, Option.bind_some, hs, Option.bind_some, hq]
  rfl

/-- A collector has answered yes after it had removed a task: the next
task goes unasked. -/
theorem bad_of_removed {e : Nat × Task} {g : List (Nat × Task)}
    {d₁ : WorkerData} {x₁ : Places} {q : Option Task × Items × Dlist}
    (hx : x.gc = e :: g) (hnd : (vals x.gc).Nodup) (hw : Went x log x₁)
    (hrep : Rep d₁ x₁) (hlt : x₁.gc.length ≠ x.gc.length)
    (hq : Queue.shift d₁.items d₁.gc true = some q) (log' : List Event) :
    Bad (vals x₁.gc) (.accepted e.2 :: .removed q.1 :: log') := by
  have hlen := hw.length
  have heq := hw.tracks.removed_eq
  cases hx₁ : x₁.gc with
  | nil =>
      have hg := hrep.gc
      rw [hx₁] at hg
      rw [Queue.shift_empty hg] at hq
      rw [← Option.some.inj hq]
      exact Or.inr (by simp)
  | cons e' g' =>
      obtain ⟨n, h', q', -, -, hs, -⟩ := WorkerData.shiftGc_spec hrep hx₁
      rw [hs] at hq
      rw [← Option.some.inj hq]
      refine Or.inl ⟨[.accepted e.2], e'.2, log', rfl, ?_,
        List.mem_cons_self⟩
      rw [List.mem_singleton]
      intro he
      injection he with he
      rw [hx₁] at heq
      -- the task asked about is the first of those removed
      cases hrem : removedTasks log with
      | nil =>
          rw [hrem] at hlen
          exact hlt (by simpa using hlen.symm)
      | cons t ts =>
          rw [heq, hrem] at hnd
          rw [hrem, hx] at heq
          injection heq with hhead _
          rw [← hhead, ← he] at hnd
          exact (List.nodup_append.mp hnd).2.2 _ List.mem_cons_self _
            List.mem_cons_self rfl

/-- The rest of the round ends well exactly if nothing was removed while
the collector ran, and the loop then does. -/
theorem Ends.goOn {e : Nat × Task} {g : List (Nat × Task)} {x₁ : Places}
    {d₁ : WorkerData} {rest : Collector} (hx : x.gc = e :: g)
    (hnd : (vals x.gc).Nodup) (hw : Went x log x₁) (hrep : Rep d₁ x₁)
    (hrest : ∀ d x, Rep d x → (vals x.gc).Nodup →
      Ends x (rest.Calm x.gc.length) (rest.left x.gc.length)
        (uncounted (rest.loop A d.gc.head d))) :
    Ends x₁ (x₁.gc.length = x.gc.length ∧ rest.Calm g.length)
      (rest.left g.length) (rest.goOn A e d₁) := by
  have hnd₁ := hw.nodup hnd
  by_cases hlen : x₁.gc.length = x.gc.length
  · have hgc : x₁.gc = e :: g := by
      rw [hw.gc_eq hlen, hx]
    obtain ⟨d', hrep', hgo⟩ := goOn_head (A := A) hrep hgc rest
    rw [and_iff_right hlen, hgo]
    have hends := hrest d' _ hrep' ((went_accepted hgc).nodup hnd₁)
    exact hends.after (went_accepted hgc) hnd₁
  · refine ⟨fun hc => absurd hc.1 hlen, fun _ log' d' hrun => ?_⟩
    obtain ⟨m, -, hrun⟩ := Option.bind_eq_some_iff.mp hrun
    obtain ⟨q, hq, hrun⟩ := Option.bind_eq_some_iff.mp hrun
    obtain ⟨s, -, hrun⟩ := Option.map_eq_some_iff.mp hrun
    obtain ⟨rfl, rfl⟩ := Prod.mk.inj hrun
    exact bad_of_removed hx hnd hw hrep hlen hq s.1

-- ============================================================ all rounds

mutual
theorem Calls.run_ends (A : Allocator) :
    (calls : Calls) → ∀ (d : WorkerData) (x : Places), Rep d x →
      (vals x.gc).Nodup → Ends x (calls.Calm x.gc.length)
        (calls.left x.gc.length) (calls.run A d)
  | .done => by
      intro d x hr _
      exact .empty hr
  | .stack v rest => by
      intro d x hr hnd
      obtain ⟨a, d', hd, hrep, -⟩ := WorkerData.addTask_spec A v hr
      rw [Calls.run, hd]
      have hrest := Calls.run_ends A rest d' _ hrep hnd
      exact hrest.stacked rfl
  | .unstack rest => by
      intro d x hr hnd
      rw [Calls.run]
      cases hq : x.queue with
      | nil =>
          rw [WorkerData.dequeueTask_nil hr hq]
          exact Calls.run_ends A rest d x hr hnd
      | cons e q =>
          obtain ⟨d', hd, hrep, -⟩ := WorkerData.dequeueTask_cons hr hq
          rw [hd]
          have hrest := Calls.run_ends A rest d' _ hrep hnd
          exact hrest.stacked rfl
  | .collect c rest => by
      intro d x hr hnd
      have hloop := Collector.loop_ends A c d x hr hnd
      have hnext : ∀ log d' x', Went x log x' → Rep d' x' →
          x'.gc.length = c.left x.gc.length →
          Ends x' (rest.Calm (c.left x.gc.length))
            (rest.left (c.left x.gc.length)) (rest.run A d') := by
        intro log d' x' hw hrep hlen
        rw [← hlen]
        exact Calls.run_ends A rest d' x' hrep (hw.nodup hnd)
      have hends := hloop.counted.bind hnd hnext
      rw [Option.bind_map] at hends
      exact hends

theorem Collector.loop_ends (A : Allocator) :
    (c : Collector) → ∀ (d : WorkerData) (x : Places), Rep d x →
      (vals x.gc).Nodup → Ends x (c.Calm x.gc.length)
        (c.left x.gc.length) (uncounted (c.loop A d.gc.head d))
  | .done => by
      intro d x hr _
      exact .empty hr
  | .ask during answer rest => by
      intro d x hr hnd
      cases hx : x.gc with
      | nil =>
          rw [hr.gc.head_eq_none.mpr hx]
          have hends := Ends.empty hr
          rw [hx] at hends
          exact hends
      | cons e g =>
          have hduring := Calls.run_ends A during d x hr hnd
          rw [hx] at hduring
          rw [loop_head hr hx]
          refine Ends.after ?_ (went_asked hx) hnd
          cases answer with
          | false =>
              have hcalm : (Collector.ask during false rest).Calm
                  (e :: g).length ↔ during.Calm (e :: g).length :=
                ⟨And.left, fun h => ⟨h, fun h => nomatch h⟩⟩
              rw [hcalm]
              exact hduring
          | true =>
              have hnext : ∀ log d' x', Went x log x' → Rep d' x' →
                  x'.gc.length = during.left (e :: g).length →
                  Ends x' (during.left (e :: g).length = (e :: g).length
                    ∧ rest.Calm g.length) (rest.left g.length)
                    (rest.goOn A e d') := by
                intro log d' x' hw hrep hlen
                have hgo := Ends.goOn hx hnd hw hrep
                  (Collector.loop_ends A rest)
                rw [hlen, hx] at hgo
                exact hgo
              have hcalm : (Collector.ask during true rest).Calm
                  (e :: g).length ↔ during.Calm (e :: g).length
                    ∧ during.left (e :: g).length = (e :: g).length
                    ∧ rest.Calm g.length :=
                ⟨fun h => ⟨h.1, h.2 rfl⟩, fun h => ⟨h.1, fun _ => h.2⟩⟩
              rw [hcalm]
              exact hduring.bind hnd hnext
end

-- ============================================================ the claim

/-- What a collect with callbacks is to do: it goes through, every task it
removes has been accepted and is not looked at again, the tasks removed
are the oldest ones of the gc queue, and `tasks_collected` grows by their
number. -/
structure Exact (A : Allocator) (c : Collector) (d : WorkerData)
    (x : Places) : Prop where
  exact : ∃ log d' x', c.collect A d = some (log, d') ∧ Rep d' x'
    ∧ Answered log ∧ NotAgain log
    ∧ vals x.gc = removedTasks log ++ vals x'.gc
    ∧ d'.tasksCollected = d.tasksCollected + (removedTasks log).length

theorem collect_exact_iff_of_rep (A : Allocator) (c : Collector)
    (hr : Rep d x) (hnd : (vals x.gc).Nodup) :
    Exact A c d x ↔ c.Calm x.gc.length := by
  have hends := Collector.loop_ends A c d x hr hnd
  constructor
  · rintro ⟨log, d', x', hrun, -, hans, -, -, hcount⟩
    by_contra hcalm
    obtain ⟨r, hr₁, hr₂⟩ := Option.map_eq_some_iff.mp hrun
    obtain ⟨rfl, rfl⟩ := Prod.mk.inj hr₂
    have hrounds := Collector.loop_rounds A c _ _ r.2.2 r.2.1 r.1 hr₁
    change r.2.2.tasksCollected + r.2.1 = _ at hcount
    rcases hends.bad hcalm r.1 r.2.2 (by unfold uncounted; rw [hr₁]; rfl)
      with ⟨l₁, t, l₂, he, hno, -⟩ | hnone
    · exact hno (hans l₁ t l₂ he)
    · have hlt := removed_lt_rounds hnone
      change (removedTasks r.1).length < rounds r.1 at hlt
      change _ = d.tasksCollected + (removedTasks r.1).length at hcount
      omega
  · intro hcalm
    obtain ⟨log, d', x', hrun, hrep, -, hwent⟩ := hends.good hcalm
    obtain ⟨r, hr₁, hr₂⟩ := Option.map_eq_some_iff.mp hrun
    obtain ⟨rfl, rfl⟩ := Prod.mk.inj hr₂
    have hrounds := Collector.loop_rounds A c _ _ r.2.2 r.2.1 r.1 hr₁
    refine ⟨r.1, (counted r).2, x', ?_, hrep.counted, hwent.answered,
      hwent.tracks.notAgain hnd, hwent.tracks.removed_eq, ?_⟩
    · unfold Collector.collect
      rw [hr₁]
      rfl
    · show r.2.2.tasksCollected + r.2.1 = _
      rw [hrounds, hwent.tracks.rounds_eq]

namespace Life

/-- In every reachable state of a worker, and for every collector, whatever
it calls in between: a collect removes exactly what was accepted, oldest
first, if and only if no collector that answers yes has removed a task
while it ran. -/
theorem collect_exact_iff (A : Allocator) (s : Life) (h : Reachable A s)
    (c : Collector) :
    ∃ x, Rep s.data x
      ∧ (Exact A c s.data x ↔ c.Calm x.gc.length) := by
  obtain ⟨x, hi⟩ := h.workerInv
  refine ⟨x, hi.rep, collect_exact_iff_of_rep A c hi.rep ?_⟩
  have hnd := hi.perm.nodup_iff.mpr hi.nodup
  have hline := (List.nodup_append.mp (List.nodup_append.mp hnd).2.1).2.1
  exact (List.nodup_append.mp (List.nodup_append.mp hline).1).1

/-- The collector stacks a task and answers yes. -/
theorem collect_exact_iff_stacking : ∃ s x,
    run .bump (init true) (collectedEarly.take 21) = some s
      ∧ Rep s.data x ∧ x.gc.length = 1
      ∧ Exact .bump (.ask (.stack ⟨9, 2⟩ .done) true .done) s.data x := by
  obtain ⟨s, hs, hsize⟩ : ∃ s,
      run .bump (init true) (collectedEarly.take 21) = some s
        ∧ s.data.gc.size = 1 := ⟨_, rfl, rfl⟩
  obtain ⟨x, hrep, hexact⟩ := collect_exact_iff .bump s ⟨true, _, hs⟩
    (.ask (.stack ⟨9, 2⟩ .done) true .done)
  have hlen : x.gc.length = 1 := by
    have := hrep.gc.size
    omega
  rw [hlen] at hexact
  exact ⟨s, x, hs, hrep, hlen, hexact.mpr ⟨trivial, fun _ => ⟨rfl, trivial⟩⟩⟩

/-- Both tasks have run, and the collector that is called with the first
one collects it, stacks a task and answers yes. The new item is where the
old one was, and the second task is removed, which no collector has been
asked about. -/
theorem collect_removes_unasked : ∃ s d,
    run .recycle (init true)
        (collectedEarly.take 21 ++ List.replicate 5 (.child .ok)) = some s
      ∧ Collector.collect .recycle (.ask (.collect (.ask .done true .done)
          (.stack ⟨9, 2⟩ .done)) true .done) s.data
        = some ([.asked ⟨7, 0⟩, .asked ⟨7, 0⟩, .accepted ⟨7, 0⟩,
            .removed (some ⟨7, 0⟩), .accepted ⟨7, 0⟩,
            .removed (some ⟨8, 1⟩)], d)
      ∧ ∀ x, ¬ Exact .recycle (.ask (.collect (.ask .done true .done)
          (.stack ⟨9, 2⟩ .done)) true .done) s.data x := by
  obtain ⟨s, d, hs, hd⟩ : ∃ s d,
      run .recycle (init true)
          (collectedEarly.take 21 ++ List.replicate 5 (.child .ok)) = some s
        ∧ Collector.collect .recycle (.ask (.collect (.ask .done true .done)
            (.stack ⟨9, 2⟩ .done)) true .done) s.data
          = some ([.asked ⟨7, 0⟩, .asked ⟨7, 0⟩, .accepted ⟨7, 0⟩,
              .removed (some ⟨7, 0⟩), .accepted ⟨7, 0⟩,
              .removed (some ⟨8, 1⟩)], d) := ⟨_, _, rfl, rfl⟩
  refine ⟨s, d, hs, hd, ?_⟩
  rintro x ⟨log, d', x', hrun, -, hans, -⟩
  rw [hd] at hrun
  obtain ⟨rfl, -⟩ := Prod.mk.inj (Option.some.inj hrun)
  have := hans [.asked ⟨7, 0⟩, .asked ⟨7, 0⟩, .accepted ⟨7, 0⟩,
    .removed (some ⟨7, 0⟩), .accepted ⟨7, 0⟩] ⟨8, 1⟩ [] rfl
  exact absurd this (by decide)

end Life

end PmmpThread.Model
