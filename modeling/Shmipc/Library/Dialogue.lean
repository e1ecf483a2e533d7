import Shmipc.Library.Transition

/-!
Two programs that talk over a pair of reliable ordered streams. A call of a program may fail at any time; what the
program does then is up to the program. As long as both keep to scripts that fit together, no order of their steps
takes one of them off its script.
-/

namespace Dialogue

open Transition

variable {ι ε E α β : Type}

inductive Prog (ι ε E α : Type)
  | ret (r : Except E α)
  | send (x : ι) (next : Except E Unit → Prog ι ε E α)
  | recv (next : Except E ι → Prog ι ε E α)
  | effect (e : ε) (next : Except E Unit → Prog ι ε E α)

namespace Prog

def bind (p : Prog ι ε E α) (f : α → Prog ι ε E β) : Prog ι ε E β :=
  match p with
  | ret (.ok a) => f a
  | ret (.error err) => ret (.error err)
  | send x next => send x fun r => (next r).bind f
  | recv next => recv fun r => (next r).bind f
  | effect e next => effect e fun r => (next r).bind f

def handle (p : Prog ι ε E α) (h : E → Prog ι ε E α) : Prog ι ε E α :=
  match p with
  | ret (.ok a) => ret (.ok a)
  | ret (.error err) => h err
  | send x next => send x fun r => (next r).handle h
  | recv next => recv fun r => (next r).handle h
  | effect e next => effect e fun r => (next r).handle h

instance : Monad (Prog ι ε E) where
  pure a := ret (.ok a)
  bind := bind

instance : MonadExceptOf E (Prog ι ε E) where
  throw err := ret (.error err)
  tryCatch := handle

end Prog

inductive Event (ι ε : Type)
  | sent (x : ι)
  | received (x : ι)
  | done (e : ε)

def sents (h : List (Event ι ε)) : List ι :=
  h.filterMap fun
    | .sent x => some x
    | _ => none

def receiveds (h : List (Event ι ε)) : List ι :=
  h.filterMap fun
    | .received x => some x
    | _ => none

section Items

variable (h h' : List (Event ι ε)) (x : ι) (e : ε)

@[simp] theorem sents_append : sents (h ++ h') = sents h ++ sents h' := List.filterMap_append

@[simp] theorem sents_sent : sents (.sent x :: h) = x :: sents h := rfl

@[simp] theorem sents_received : sents (.received x :: h) = sents h := rfl

@[simp] theorem sents_done : sents (.done e :: h) = sents h := rfl

@[simp] theorem receiveds_append : receiveds (h ++ h') = receiveds h ++ receiveds h' := List.filterMap_append

@[simp] theorem receiveds_sent : receiveds (.sent x :: h) = receiveds h := rfl

@[simp] theorem receiveds_received : receiveds (.received x :: h) = x :: receiveds h := rfl

@[simp] theorem receiveds_done : receiveds (.done e :: h) = receiveds h := rfl

end Items

structure End (ι ε E α : Type) where
  prog : Prog ι ε E α
  history : List (Event ι ε)

def End.step (d : End ι ε E α) (inbox : List ι) (fails : Option E) : Option (End ι ε E α × List ι × List ι) :=
  match d.prog, fails with
  | .ret _, _ => none
  | .send x next, none => some (⟨next (.ok ()), d.history ++ [.sent x]⟩, inbox, [x])
  | .send _ next, some err => some (⟨next (.error err), d.history⟩, inbox, [])
  | .recv next, none =>
    match inbox with
    | [] => none
    | x :: inbox => some (⟨next (.ok x), d.history ++ [.received x]⟩, inbox, [])
  | .recv next, some err => some (⟨next (.error err), d.history⟩, inbox, [])
  | .effect e next, none => some (⟨next (.ok ()), d.history ++ [.done e]⟩, inbox, [])
  | .effect _ next, some err => some (⟨next (.error err), d.history⟩, inbox, [])

structure State (ι ε E α β : Type) where
  client : End ι ε E α
  server : End ι ε E β
  toClient : List ι
  toServer : List ι

inductive Party
  | client
  | server
deriving DecidableEq

def step (s : State ι ε E α β) : Party × Option E → Option (State ι ε E α β)
  | (.client, fails) => (s.client.step s.toClient fails).map fun (d, inbox, out) =>
    { s with client := d, toClient := inbox, toServer := s.toServer ++ out }
  | (.server, fails) => (s.server.step s.toServer fails).map fun (d, inbox, out) =>
    { s with server := d, toServer := inbox, toClient := s.toClient ++ out }

def system (client : Prog ι ε E α) (server : Prog ι ε E β) : System (State ι ε E α β) (Party × Option E) where
  initial s := s = ⟨⟨client, []⟩, ⟨server, []⟩, [], []⟩
  step := step

inductive Stops : Prog ι ε E α → Prop
  | ret (err : E) : Stops (.ret (.error err))
  | effect (e : ε) {next : Except E Unit → Prog ι ε E α} : (∀ r, Stops (next r)) → Stops (.effect e next)

inductive Follows : Prog ι ε E α → List (Event ι ε) → α → Prop
  | ret (a : α) : Follows (.ret (.ok a)) [] a
  | send {x : ι} {next : Except E Unit → Prog ι ε E α} {script : List (Event ι ε)} {a : α} :
    (∀ err, Stops (next (.error err))) → Follows (next (.ok ())) script a → Follows (.send x next) (.sent x :: script) a
  | recv {x : ι} {next : Except E ι → Prog ι ε E α} {script : List (Event ι ε)} {a : α} :
    (∀ err, Stops (next (.error err))) → Follows (next (.ok x)) script a → Follows (.recv next) (.received x :: script) a
  | effect {e : ε} {next : Except E Unit → Prog ι ε E α} {script : List (Event ι ε)} {a : α} :
    (∀ err, Stops (next (.error err))) → Follows (next (.ok ())) script a → Follows (.effect e next) (.done e :: script) a

variable {p : Prog ι ε E α} {script script' : List (Event ι ε)} {a : α} {b : β}

theorem Stops.bind (h : Stops p) (f : α → Prog ι ε E β) : Stops (p >>= f) := by
  induction h with
  | ret err => exact .ret err
  | effect e _ ih => exact .effect e ih

theorem Stops.handle {h : E → Prog ι ε E α} (hp : Stops p) (hh : ∀ err, Stops (h err)) : Stops (p.handle h) := by
  induction hp with
  | ret err => exact hh err
  | effect e _ ih => exact .effect e ih

theorem Follows.bind {f : α → Prog ι ε E β} (h : Follows p script a) (hf : Follows (f a) script' b) :
    Follows (p >>= f) (script ++ script') b := by
  induction h with
  | ret a => exact hf
  | send hstop _ ih => exact .send (fun err => (hstop err).bind f) (ih hf)
  | recv hstop _ ih => exact .recv (fun err => (hstop err).bind f) (ih hf)
  | effect hstop _ ih => exact .effect (fun err => (hstop err).bind f) (ih hf)

theorem Follows.handle {h : E → Prog ι ε E α} (hp : Follows p script a) (hh : ∀ err, Stops (h err)) :
    Follows (p.handle h) script a := by
  induction hp with
  | ret a => exact .ret a
  | send hstop _ ih => exact .send (fun err => (hstop err).handle hh) ih
  | recv hstop _ ih => exact .recv (fun err => (hstop err).handle hh) ih
  | effect hstop _ ih => exact .effect (fun err => (hstop err).handle hh) ih

/-- The program is on its script, or it has met an error after a part of it. -/
inductive OnScript (script : List (Event ι ε)) (a : α) (d : End ι ε E α) : Prop
  | on (rest : List (Event ι ε)) : script = d.history ++ rest → Follows d.prog rest a → OnScript script a d
  | off (before rest after : List (Event ι ε)) : script = before ++ rest → d.history = before ++ after →
    sents after = [] → receiveds after = [] → Stops d.prog → OnScript script a d

namespace OnScript

variable {d d' : End ι ε E α} {inbox inbox' out total : List ι} {fails : Option E}

theorem items (h : OnScript script a d) : sents d.history <+: sents script ∧ receiveds d.history <+: receiveds script := by
  cases h with
  | on rest hscript _ =>
    rw [hscript, sents_append, receiveds_append]
    exact ⟨List.prefix_append _ _, List.prefix_append _ _⟩
  | off before rest after hscript hhistory hsents hreceiveds _ =>
    rw [hscript, hhistory]
    simp only [sents_append, receiveds_append, hsents, hreceiveds, List.append_nil]
    exact ⟨List.prefix_append _ _, List.prefix_append _ _⟩

theorem completed (h : OnScript script a d) {v : α} (hret : d.prog = .ret (.ok v)) : d.history = script ∧ a = v := by
  cases h with
  | on rest hscript hfollows =>
    rw [hret] at hfollows
    cases hfollows
    rw [hscript, List.append_nil]
    exact ⟨rfl, rfl⟩
  | off _ _ _ _ _ _ _ hstops =>
    rw [hret] at hstops
    cases hstops

theorem advance {history rest : List (Event ι ε)} {v : Event ι ε} (heq : script = history ++ v :: rest) (hp : Follows p rest a) :
    OnScript script a ⟨p, history ++ [v]⟩ := by
  refine .on rest ?_ hp
  rw [heq, List.append_assoc]
  rfl

theorem fail {history rest : List (Event ι ε)} (heq : script = history ++ rest) (hp : Stops p) : OnScript script a ⟨p, history⟩ :=
  .off history rest [] heq (List.append_nil _).symm rfl rfl hp

theorem next_item {history : List (Event ι ε)} {x y : ι} {xs ys : List ι} (hx : receiveds history ++ x :: xs <+: total)
    (hy : receiveds history ++ y :: ys <+: total) : x = y := by
  obtain ⟨us, hus⟩ := hx
  obtain ⟨vs, hvs⟩ := hy
  rw [← hvs, List.append_assoc, List.append_assoc] at hus
  exact (List.cons.inj (List.append_cancel_left hus)).1

theorem step (h : OnScript script a d) (hstep : d.step inbox fails = some (d', inbox', out))
    (hinbox : receiveds d.history ++ inbox <+: total) (hscript : receiveds script <+: total) :
    OnScript script a d' ∧ sents d'.history = sents d.history ++ out ∧
      receiveds d'.history ++ inbox' = receiveds d.history ++ inbox := by
  obtain ⟨p, history⟩ := d
  cases h with
  | on rest heq hfollows =>
    simp only at heq hfollows hinbox
    cases hfollows with
    | ret => cases hstep
    | send hstop hnext =>
      cases fails with
      | none =>
        cases hstep
        refine ⟨advance heq hnext, sents_append _ _, ?_⟩
        rw [receiveds_append, List.append_assoc]
        rfl
      | some err =>
        cases hstep
        exact ⟨fail heq (hstop err), (List.append_nil _).symm, rfl⟩
    | recv hstop hnext =>
      cases fails with
      | none =>
        cases inbox with
        | nil => cases hstep
        | cons y inbox =>
          cases hstep
          rw [heq, receiveds_append] at hscript
          obtain rfl := next_item hscript hinbox
          refine ⟨advance heq hnext, ?_, ?_⟩
          · rw [sents_append]
            rfl
          · rw [receiveds_append, List.append_assoc]
            rfl
      | some err =>
        cases hstep
        exact ⟨fail heq (hstop err), (List.append_nil _).symm, rfl⟩
    | effect hstop hnext =>
      cases fails with
      | none =>
        cases hstep
        refine ⟨advance heq hnext, sents_append _ _, ?_⟩
        rw [receiveds_append, List.append_assoc]
        rfl
      | some err =>
        cases hstep
        exact ⟨fail heq (hstop err), (List.append_nil _).symm, rfl⟩
  | off before rest after heq hhistory hsents hreceiveds hstops =>
    simp only at hhistory hstops hinbox
    cases hstops with
    | ret => cases hstep
    | effect e hnext =>
      cases fails with
      | none =>
        cases hstep
        refine ⟨.off before rest (after ++ [.done e]) heq ?_ ?_ ?_ (hnext _), sents_append _ _, ?_⟩
        · rw [hhistory, List.append_assoc]
        · rw [sents_append, hsents]
          rfl
        · rw [receiveds_append, hreceiveds]
          rfl
        · rw [receiveds_append, List.append_assoc]
          rfl
      | some err =>
        cases hstep
        exact ⟨.off before rest after heq hhistory hsents hreceiveds (hnext _), (List.append_nil _).symm, rfl⟩

end OnScript

structure Agrees (script script' : List (Event ι ε)) (a : α) (b : β) (s : State ι ε E α β) : Prop where
  client : OnScript script a s.client
  server : OnScript script' b s.server
  toServer : sents s.client.history = receiveds s.server.history ++ s.toServer
  toClient : sents s.server.history = receiveds s.client.history ++ s.toClient

section Run

variable {client : Prog ι ε E α} {server : Prog ι ε E β} {s t : State ι ε E α β} {label : Party × Option E}
  (hclient : receiveds script <+: sents script') (hserver : receiveds script' <+: sents script)
include hclient hserver

theorem Agrees.step (h : Agrees script script' a b s) (hstep : Dialogue.step s label = some t) :
    Agrees script script' a b t := by
  obtain ⟨party, fails⟩ := label
  cases party with
  | client =>
    obtain ⟨⟨d, inbox, out⟩, hd, rfl⟩ := Option.map_eq_some_iff.mp hstep
    have hinbox : receiveds s.client.history ++ s.toClient <+: sents script' := h.toClient ▸ h.server.items.1
    obtain ⟨hon, hsents, hreceiveds⟩ := h.client.step hd hinbox hclient
    refine ⟨hon, h.server, ?_, ?_⟩
    · change sents d.history = receiveds s.server.history ++ (s.toServer ++ out)
      rw [hsents, h.toServer, List.append_assoc]
    · change sents s.server.history = receiveds d.history ++ inbox
      rw [hreceiveds, h.toClient]
  | server =>
    obtain ⟨⟨d, inbox, out⟩, hd, rfl⟩ := Option.map_eq_some_iff.mp hstep
    have hinbox : receiveds s.server.history ++ s.toServer <+: sents script := h.toServer ▸ h.client.items.1
    obtain ⟨hon, hsents, hreceiveds⟩ := h.server.step hd hinbox hserver
    refine ⟨h.client, hon, ?_, ?_⟩
    · change sents s.client.history = receiveds d.history ++ inbox
      rw [hreceiveds, h.toServer]
    · change sents d.history = receiveds s.client.history ++ (s.toClient ++ out)
      rw [hsents, h.toClient, List.append_assoc]

theorem agrees_of_run (hc : Follows client script a) (hs : Follows server script' b) (hrun : (system client server).Run s) :
    Agrees script script' a b s := by
  refine hrun.invariant (I := Agrees script script' a b) ?_ fun _ _ _ h _ hstep => h.step hclient hserver hstep
  rintro s rfl
  exact ⟨.on script rfl hc, .on script' rfl hs, rfl, rfl⟩

end Run

theorem OnScript.mem_of_sents {d : End ι ε E α} {before after : List (Event ι ε)} {x : ι} {v : Event ι ε}
    (h : OnScript (before ++ .sent x :: after) a d) (hsents : (sents before).length < (sents d.history).length)
    (hv : v ∈ before) : v ∈ d.history := by
  have hmem : ∀ pre rest, before ++ .sent x :: after = pre ++ rest → (sents before).length < (sents pre).length → v ∈ pre := by
    intro pre rest heq hlt
    rcases List.append_eq_append_iff.mp heq with ⟨as, rfl, -⟩ | ⟨cs, rfl, -⟩
    · exact List.mem_append_left _ hv
    · rw [sents_append, List.length_append] at hlt
      omega
  cases h with
  | on rest heq _ => exact hmem _ rest heq hsents
  | off pre rest tail heq hhistory hnone _ _ =>
    rw [hhistory, sents_append, hnone, List.append_nil] at hsents
    rw [hhistory]
    exact List.mem_append_left _ (hmem pre rest heq hsents)

inductive Halt (ι ε E α : Type)
  | returned (r : Except E α) (rest : List ι)
  | asked (e : ε)

/-- The peer has sent `items` and nothing else, and every send succeeds. -/
def Prog.drive (eof : E) : Prog ι ε E α → List ι → Halt ι ε E α
  | .ret r, items => .returned r items
  | .send _ next, items => (next (.ok ())).drive eof items
  | .recv next, [] => (next (.error eof)).drive eof []
  | .recv next, x :: items => (next (.ok x)).drive eof items
  | .effect e _, _ => .asked e

def Halt.Failed : Halt ι ε E α → Prop
  | .returned (.error _) _ => True
  | _ => False

def Halt.bind (d : Halt ι ε E α) (f : α → List ι → Halt ι ε E β) : Halt ι ε E β :=
  match d with
  | .returned (.ok a) rest => f a rest
  | .returned (.error err) rest => .returned (.error err) rest
  | .asked e => .asked e

def Halt.handle (d : Halt ι ε E α) (f : E → List ι → Halt ι ε E α) : Halt ι ε E α :=
  match d with
  | .returned (.error err) rest => f err rest
  | d => d

theorem Halt.Failed.bind {d : Halt ι ε E α} (h : d.Failed) (f : α → List ι → Halt ι ε E β) : (d.bind f).Failed := by
  match d with
  | .returned (.error _) _ => trivial

theorem Halt.Failed.handle {d : Halt ι ε E α} (h : d.Failed) {f : E → List ι → Halt ι ε E α} (hf : ∀ err rest, (f err rest).Failed) :
    (d.handle f).Failed := by
  match d with
  | .returned (.error err) rest => exact hf err rest

section Drive

variable (eof : E)

theorem Prog.drive_bind (p : Prog ι ε E α) (f : α → Prog ι ε E β) (items : List ι) :
    (p >>= f).drive eof items = (p.drive eof items).bind fun a rest => (f a).drive eof rest := by
  change (p.bind f).drive eof items = _
  induction p generalizing items with
  | ret r =>
    cases r with
    | ok a => rfl
    | error err => rfl
  | send x next ih => exact ih (.ok ()) items
  | recv next ih =>
    cases items with
    | nil => exact ih (.error eof) []
    | cons x items => exact ih (.ok x) items
  | effect e next ih => rfl

theorem Prog.drive_tryCatch (p : Prog ι ε E α) (h : E → Prog ι ε E α) (items : List ι) :
    (tryCatch p h).drive eof items = (p.drive eof items).handle fun err rest => (h err).drive eof rest := by
  change (p.handle h).drive eof items = _
  induction p generalizing items with
  | ret r =>
    cases r with
    | ok a => rfl
    | error err => rfl
  | send x next ih => exact ih (.ok ()) items
  | recv next ih =>
    cases items with
    | nil => exact ih (.error eof) []
    | cons x items => exact ih (.ok x) items
  | effect e next ih => rfl

end Drive

end Dialogue
