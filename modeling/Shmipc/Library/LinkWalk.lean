import Mathlib.Data.List.Nodup

/-!
A walk along links that lie in a state, where the visits change the state they are read from. `link V a` is where `a` leads to
when `V` has been visited, the latest first.
-/

namespace LinkWalk

variable {σ α : Type}

/-- `step s a` is what the visit of `a` makes of `s` and where the walk goes from there; `none` when there is nothing
at `a`. The walk is over in `t` and has visited `A`. -/
inductive Visits (step : σ → α → Option (σ × Option α)) : σ → α → List α → σ → Prop
  | stop {s : σ} {a : α} : step s a = none → Visits step s a [] s
  | last {s t : σ} {a : α} : step s a = some (t, none) → Visits step s a [a] t
  | next {s s' t : σ} {a b : α} {A : List α} : step s a = some (s', some b) → Visits step s' b A t →
      Visits step s a (a :: A) t

inductive Leads (link : List α → α → Option (Option α)) : List α → α → List α → Prop
  | stop {V : List α} {a : α} : link V a = none → Leads link V a []
  | last {V : List α} {a : α} : link V a = some none → Leads link V a [a]
  | next {V : List α} {a b : α} {A : List α} : link V a = some (some b) → Leads link (a :: V) b A → Leads link V a (a :: A)

inductive Trail (link : List α → α → Option (Option α)) (off : α) : List α → α → Prop
  | start : Trail link off [] off
  | step {V : List α} {a b : α} : Trail link off V a → a ∉ V → link V a = some (some b) → Trail link off (a :: V) b

structure Follows (step : σ → α → Option (σ × Option α)) (link : List α → α → Option (Option α)) (I : σ → List α → Prop)
    (off : α) : Prop where
  fresh : ∀ s V a, I s V → Trail link off V a → a ∉ V → (step s a).map Prod.snd = link V a
  keeps : ∀ s V a t b, I s V → Trail link off V a → a ∉ V → step s a = some (t, some b) → I t (a :: V)
  seen : ∀ s V a, I s V → Trail link off V a → a ∈ V → (step s a = none ↔ link V a = none)

variable {step : σ → α → Option (σ × Option α)} {link : List α → α → Option (Option α)} {I : σ → List α → Prop} {s t : σ}
  {a b off : α} {A V : List α}

theorem Follows.stop_iff (hf : Follows step link I off) (hI : I s V) (hr : Trail link off V a) :
    step s a = none ↔ link V a = none := by
  by_cases ha : a ∈ V
  · exact hf.seen s V a hI hr ha
  · rw [← hf.fresh s V a hI hr ha, Option.map_eq_none_iff]

theorem not_mem_visited (hnd : (a :: A).Nodup) (hV : ∀ x ∈ a :: A, x ∉ V) : ∀ x ∈ A, x ∉ a :: V := by
  intro x hx hmem
  rcases List.mem_cons.mp hmem with rfl | hmem
  · exact (List.nodup_cons.mp hnd).1 hx
  · exact hV x (List.mem_cons_of_mem a hx) hmem

theorem Visits.path (hf : Follows step link I off) (h : Visits step s a A t) (hI : I s V) (hr : Trail link off V a)
    (hnd : A.Nodup) (hV : ∀ x ∈ A, x ∉ V) : Leads link V a A := by
  induction h generalizing V with
  | stop hstop => exact .stop ((hf.stop_iff hI hr).mp hstop)
  | @last s t a hlast =>
    have hlink := hf.fresh s V a hI hr (hV a List.mem_cons_self)
    rw [hlast] at hlink
    exact .last hlink.symm
  | @next s s' t a b A hnext _ ih =>
    have ha := hV a List.mem_cons_self
    have hlink := hf.fresh s V a hI hr ha
    rw [hnext] at hlink
    apply Leads.next hlink.symm
    exact ih (hf.keeps s V a s' b hI hr ha hnext) (hr.step ha hlink.symm) hnd.of_cons (not_mem_visited hnd hV)

end LinkWalk
