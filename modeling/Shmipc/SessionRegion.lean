import Shmipc.Registry

/-!
Memfd sessions between a client process and a server process, each with its own registry. The
managers of a path in the client's registry number the regions of that path; a manager of the server
is backed by the region whose descriptor it was mapped from.
-/

namespace Shmipc.SessionRegion

open Transition Registry

variable {Path ι : Type}

/-- The sessions under one path. `sent` is the region whose descriptor the client of a session hands
over in the handshake; the server takes up what is `offered`. -/
structure Link (ι : Type) where
  client : Registry.State Unit ι
  server : Registry.State ℕ ι
  sent : ι → Option ℕ
  offered : ι → Bool

inductive Act
  | client (a : Registry.Act Unit)
  | send
  | server (a : Registry.Act Unit)

def opens {ρ : Type} : Registry.Act ρ → Bool
  | .find => true
  | .create _ | .insert | .release | .fetchAdd | .unmap | .reinsert => false

def mapping (r : ℕ) : Registry.Act Unit → Registry.Act ℕ
  | .find => .find
  | .create ok => .create (ok.map fun _ => r)
  | .insert => .insert
  | .release => .release
  | .fetchAdd => .fetchAdd
  | .unmap => .unmap
  | .reinsert => .reinsert

def step [DecidableEq ι] (s : Link ι) (i : ι) : Act → Option (Link ι)
  | .client a =>
    if opens a = true ∧ s.sent i ≠ none then none
    else (Registry.step s.client i a).map fun c => { s with client := c }
  | .send =>
    match s.client.pc i, s.sent i with
    | .holding m, none =>
      some { s with sent := Function.update s.sent i (some m), offered := Function.update s.offered i true }
    | _, _ => none
  | .server a =>
    match s.sent i with
    | none => none
    | some r =>
      if opens a = true ∧ s.offered i = false then none
      else (Registry.step s.server i (mapping r a)).map fun c =>
        { s with server := c, offered := if opens a then Function.update s.offered i false else s.offered }

def initial : Link ι where
  client := Registry.initial
  server := Registry.initial
  sent _ := none
  offered _ := false

def system (Path ι : Type) [DecidableEq Path] [DecidableEq ι] : System (Path → Link ι) (Path × ι × Act) where
  initial s := s = fun _ => initial
  step s a := (step (s a.1) a.2.1 a.2.2).map (Function.update s a.1)

/-- When the server takes up a handshake and finds the path registered, the manager is on the region of that handshake:
the sessions that were on another one have been noticed to be at their end. -/
def Noticed (s : Link ι) (i : ι) : Act → Prop
  | .server .find => ∀ m ∈ s.server.registered, s.server.region m = s.sent i
  | _ => True

def AllNoticed (s : Path → Link ι) (a : Path × ι × Act) : Prop := Noticed (s a.1) a.2.1 a.2.2

instance (s : Link ι) (i : ι) : (a : Act) → Decidable (Noticed s i a)
  | .server .find => inferInstanceAs (Decidable (∀ m ∈ s.server.registered, _))
  | .client _ | .send | .server (.create _) | .server .insert | .server .release | .server .fetchAdd | .server .unmap
  | .server .reinsert => .isTrue trivial

instance (s : Path → Link ι) (a : Path × ι × Act) : Decidable (AllNoticed s a) :=
  inferInstanceAs (Decidable (Noticed _ _ _))

structure Matched (s : Link ι) : Prop where
  bounded : Bounded s.server
  backed : ∀ i m, (s.server.pc i).manager = some m → m < s.server.next ∧ s.server.region m = s.sent i
  unsent : ∀ i, s.sent i = none → s.server.pc i = .idle
  allocates : ∀ i k, (s.client.pc i).manager = some k → s.sent i = none ∨ s.sent i = some k
  early : ∀ i, s.client.pc i = .creating → s.sent i = none

variable {s t : Link ι} {i : ι} {a : Act}

theorem mapping_find {a : Registry.Act Unit} {r : ℕ} (h : mapping r a = .find) : a = .find := by
  cases a <;> simp [mapping] at h ⊢

theorem mapping_create {a : Registry.Act Unit} {r r' : ℕ} (h : mapping r a = .create (some r')) : r' = r := by
  cases a <;> simp only [mapping, reduceCtorEq, Registry.Act.create.injEq, Option.map_eq_some_iff] at h
  exact h.choose_spec.2.symm

theorem matched_initial : Matched (initial : Link ι) where
  bounded := bounded_initial
  backed _ _ h := by simp [initial, Registry.initial, Caller.manager] at h
  unsent _ _ := rfl
  allocates _ _ h := by simp [initial, Registry.initial, Caller.manager] at h
  early _ _ := rfl

variable [DecidableEq ι]

theorem Matched.client {a : Registry.Act Unit} {c : Registry.State Unit ι} (h : Matched s)
    (hg : ¬(opens a = true ∧ s.sent i ≠ none)) (hs : Registry.step s.client i a = some c) :
    Matched { s with client := c } := by
  have hf := step_frame hs
  have hfind : a = .find → s.sent i = none := by
    rintro rfl
    by_contra hne
    exact hg ⟨rfl, hne⟩
  refine ⟨h.bounded, h.backed, h.unsent, fun j k hk => ?_, fun j hj => ?_⟩
  · by_cases he : j = i
    · subst he
      cases hf.obtains k hk with
      | found ha _ => exact .inl (hfind ha)
      | made r _ hc _ _ => exact .inl (h.early j hc)
      | kept hc => exact h.allocates j k (by rw [hc, Caller.manager])
    · rw [hf.others j he] at hk
      exact h.allocates j k hk
  · by_cases he : j = i
    · subst he
      exact hfind (hf.creating hj)
    · rw [hf.others j he] at hj
      exact h.early j hj

theorem Matched.send {m : ℕ} (h : Matched s) (hm : s.client.pc i = .holding m) (hn : s.sent i = none) :
    Matched { s with
      sent := Function.update s.sent i (some m), offered := Function.update s.offered i true } := by
  refine ⟨h.bounded, fun j k hk => ?_, fun j hj => ?_, fun j k hk => ?_, fun j hj => ?_⟩ <;> by_cases he : j = i
  · rw [he, h.unsent i hn, Caller.manager] at hk
    cases hk
  · simpa [Function.update_of_ne he] using h.backed j k hk
  · simp [he] at hj
  · exact h.unsent j ((Function.update_of_ne he _ _).symm.trans hj)
  · rw [he, hm, Caller.manager] at hk
    exact .inr (by simpa [he] using hk)
  · simpa [Function.update_of_ne he] using h.allocates j k hk
  · rw [he, hm] at hj
    cases hj
  · exact (Function.update_of_ne he _ _).trans (h.early j hj)

theorem Matched.server {a : Registry.Act Unit} {c : Registry.State ℕ ι} {r : ℕ} {o : ι → Bool}
    (h : Matched s) (ha : Noticed s i (.server a)) (hr : s.sent i = some r)
    (hs : Registry.step s.server i (mapping r a) = some c) : Matched { s with server := c, offered := o } := by
  have hf := step_frame hs
  refine ⟨h.bounded.step hs, fun j k hk => ?_, fun j hj => ?_, h.allocates, h.early⟩
  · by_cases he : j = i
    · subst he
      cases hf.obtains k hk with
      | found hfind hreg =>
        have hnot : Noticed s j (.server .find) := mapping_find hfind ▸ ha
        have hlt := h.bounded.registered k hreg
        exact ⟨hlt.trans_le hf.next_le, (hf.region k hlt).trans (hnot k hreg)⟩
      | made r' hc _ hlt hreg =>
        rw [hreg, hr, mapping_create hc]
        exact ⟨hlt, rfl⟩
      | kept hc =>
        obtain ⟨hlt, hreg⟩ := h.backed j k (by rw [hc, Caller.manager])
        exact ⟨hlt.trans_le hf.next_le, (hf.region k hlt).trans hreg⟩
    · rw [hf.others j he] at hk
      obtain ⟨hlt, hreg⟩ := h.backed j k hk
      exact ⟨hlt.trans_le hf.next_le, (hf.region k hlt).trans hreg⟩
  · have he : j ≠ i := by
      rintro rfl
      rw [hr] at hj
      cases hj
    rw [hf.others j he]
    exact h.unsent j hj

theorem Matched.step (h : Matched s) (ha : Noticed s i a) (hs : step s i a = some t) : Matched t := by
  cases a with
  | client a =>
    simp only [SessionRegion.step] at hs
    split_ifs at hs with hg
    obtain ⟨c, hc, rfl⟩ := Option.map_eq_some_iff.mp hs
    exact h.client hg hc
  | send =>
    simp only [SessionRegion.step] at hs
    split at hs
    · next m hm hsent =>
      obtain rfl := Option.some.inj hs
      exact h.send hm hsent
    · cases hs
  | server a =>
    simp only [SessionRegion.step] at hs
    split at hs
    · cases hs
    · next r hr =>
      rw [Option.ite_none_left_eq_some] at hs
      obtain ⟨c, hc, rfl⟩ := Option.map_eq_some_iff.mp hs.2
      exact h.server ha hr hc

theorem matched_of_reachable [DecidableEq Path] {s : Path → Link ι} (h : (system Path ι).Reachable AllNoticed s) (p : Path) : Matched (s p) := by
  induction h with
  | initial h0 =>
    rw [h0]
    exact matched_initial
  | @next s t a _ hok hstep ih =>
    simp only [system, Option.map_eq_some_iff] at hstep
    obtain ⟨u, hu, rfl⟩ := hstep
    by_cases hp : p = a.1
    · rw [hp, Function.update_self]
      rw [hp] at ih
      exact ih.step hok hu
    · rw [Function.update_of_ne hp]
      exact ih

theorem same_region [DecidableEq Path] {s : Path → Link ι} (h : (system Path ι).Reachable AllNoticed s) (p : Path) (i : ι) (m : ℕ) (hm : (s p).server.pc i = .holding m) :
    ∃ r, (s p).sent i = some r ∧ (s p).server.region m = some r ∧
      ∀ k, (s p).client.pc i = .holding k → k = r := by
  have hmatch := matched_of_reachable h p
  obtain ⟨-, hreg⟩ := hmatch.backed i m (by rw [hm, Caller.manager])
  cases hr : (s p).sent i with
  | none =>
    rw [hmatch.unsent i hr] at hm
    cases hm
  | some r =>
    refine ⟨r, rfl, hreg.trans hr, fun k hk => ?_⟩
    have hsent := hmatch.allocates i k (by rw [hk, Caller.manager])
    rw [hr] at hsent
    exact (Option.some.inj (hsent.resolve_left (by simp))).symm

-- what a process does for one session, from the registry miss to the return of the get, and back
def opening : List (Registry.Act Unit) := [.find, .create (some ()), .insert]

def closing : List (Registry.Act Unit) := [.release, .fetchAdd, .unmap]

def byClient (i : Fin 2) (as : List (Registry.Act Unit)) : List (ℕ × Fin 2 × Act) := as.map fun a => (5, i, .client a)

def byServer (i : Fin 2) (as : List (Registry.Act Unit)) : List (ℕ × Fin 2 × Act) := as.map fun a => (5, i, .server a)

theorem same_region_reopened : ∃ s : ℕ → Link (Fin 2), (s 5).server.pc 1 = .holding 1 ∧
    ∃ r, (s 5).sent 1 = some r ∧ (s 5).server.region 1 = some r ∧ ∀ k, (s 5).client.pc 1 = .holding k → k = r := by
  have hrun : (((system ℕ (Fin 2)).restrict AllNoticed).runFrom (fun _ => initial)
      (byClient 0 opening ++ (5, 0, .send) :: byServer 0 opening ++ byClient 0 closing ++ byClient 1 opening ++
      (5, 1, .send) :: byServer 0 [.release] ++ byServer 1 opening ++ byServer 0 [.fetchAdd, .unmap])).map
      (fun s => (s 5).server.pc 1) = some (.holding 1) := by
    decide
  obtain ⟨s, hs, hpc⟩ := Option.map_eq_some_iff.mp hrun
  have hnoticed : ((system ℕ (Fin 2)).restrict AllNoticed).Run s := .runFrom (fun _ _ _ => trivial) (.initial rfl) hs
  exact ⟨s, hpc, same_region (.of_restrict hnoticed) 5 1 1 hpc⟩

theorem old_region_reused : ∃ s, (system ℕ (Fin 2)).Run s ∧ (s 5).server.pc 1 = .holding 0 ∧
    (s 5).server.region 0 = some 0 ∧ (s 5).sent 1 = some 1 ∧ (s 5).client.pc 1 = .holding 1 := by
  have hrun : ((system ℕ (Fin 2)).runFrom (fun _ => initial)
      (byClient 0 opening ++ (5, 0, .send) :: byServer 0 opening ++ byClient 0 closing ++ byClient 1 opening ++
      [(5, 1, .send), (5, 1, .server .find)])).map
      (fun s => ((s 5).server.pc 1, (s 5).server.region 0, (s 5).sent 1, (s 5).client.pc 1)) =
      some (.holding 0, some 0, some 1, .holding 1) := by
    decide
  obtain ⟨s, hs, he⟩ := Option.map_eq_some_iff.mp hrun
  simp only [Prod.mk.injEq] at he
  exact ⟨s, .runFrom (fun _ _ _ => trivial) (.initial rfl) hs, he⟩

end Shmipc.SessionRegion
