import Mathlib.Tactic

/-!
Deterministic steps chosen by an arbitrary schedule. `Reachable` carries a
side condition on every step taken, so that a property of all runs and a
property of the runs meeting a condition are instances of one notion.
-/

namespace Transition

variable {σ α : Type*}

structure System (σ α : Type*) where
  initial : σ → Prop
  step : σ → α → Option σ

namespace System

variable (S : System σ α)

inductive Reachable (ok : σ → α → Prop) : σ → Prop
  | initial {s : σ} : S.initial s → Reachable ok s
  | next {s t : σ} {a : α} : Reachable ok s → ok s a → S.step s a = some t → Reachable ok t

abbrev Run (s : σ) : Prop := S.Reachable (fun _ _ => True) s

def runFrom : σ → List α → Option σ
  | s, [] => some s
  | s, a :: as => (S.step s a).bind (fun t => runFrom t as)

variable {S} {ok : σ → α → Prop} {I : σ → Prop}

theorem Reachable.invariant (h0 : ∀ s, S.initial s → I s)
    (hs : ∀ s a t, I s → ok s a → S.step s a = some t → I t) {s : σ} (h : S.Reachable ok s) : I s := by
  induction h with
  | initial hi => exact h0 _ hi
  | next _ hok hstep ih => exact hs _ _ _ ih hok hstep

theorem Reachable.runFrom {s t : σ} {as : List α} (h0 : ∀ a ∈ as, ∀ s, ok s a) (hs : S.Reachable ok s)
    (h : S.runFrom s as = some t) : S.Reachable ok t := by
  induction as generalizing s with
  | nil =>
    simp only [System.runFrom, Option.some.injEq] at h
    exact h ▸ hs
  | cons a as ih =>
    simp only [System.runFrom, Option.bind_eq_some_iff] at h
    obtain ⟨u, hu, hr⟩ := h
    exact ih (fun b hb => h0 b (List.mem_cons_of_mem a hb)) (hs.next (h0 a List.mem_cons_self s) hu) hr

def restrict (S : System σ α) (ok : σ → α → Prop) [∀ s a, Decidable (ok s a)] : System σ α where
  initial := S.initial
  step s a := if ok s a then S.step s a else none

theorem Reachable.of_restrict [∀ s a, Decidable (ok s a)] {s : σ} (h : (S.restrict ok).Run s) :
    S.Reachable ok s := by
  induction h with
  | initial hi => exact .initial hi
  | next _ _ hstep ih =>
    simp only [restrict, Option.ite_none_right_eq_some] at hstep
    exact ih.next hstep.1 hstep.2

end System

end Transition
