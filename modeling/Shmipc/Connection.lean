import Shmipc.Library.Threads
import Shmipc.Stream

/-!
The two sessions of one connection and their streams. Each side opens streams with `open_stream`, flushes
and closes them in any number of threads, and has one read loop. A step is one load, one read-modify-write,
one section under a lock, or one put. What a flush or a close finds (the buffer in shared memory, room in
the queue, a socket that takes the frame) is part of the schedule.
-/

namespace Shmipc.Connection

open Transition StreamRead

inductive Party
  | client
  | server
deriving DecidableEq

def Party.peer : Party → Party
  | .client => .server
  | .server => .client

def Party.base : Party → ℕ
  | .client => 1
  | .server => 2

/-- A `Stream` of one side. The `source` is a ghost: the object of the peer whose data made `get_stream`
build the stream, and none for a stream of `open_stream`. -/
structure Object where
  id : ℕ
  state : StreamState
  inFallbackState : Bool
  source : Option ℕ
deriving DecidableEq

/-- Ring elements have the status opened (`data`) or closed; frames are `FallbackData` (`data`, with the
status opened, the only one `flush` sends) and `StreamClose`. -/
inductive Kind
  | data
  | closed
  | streamClose
deriving DecidableEq

structure Msg where
  seqId : ℕ
  kind : Kind
  origin : ℕ
deriving DecidableEq

inductive Channel
  | ring
  | frames
deriving DecidableEq

inductive Call
  | count (id : ℕ)
  | emplace (id : ℕ)
  | put (k : ℕ)
  | erase (k : ℕ) (old : StreamState)
  | notify (k : ℕ)
  | returned
deriving DecidableEq

/-- Where the read loop is with the message it took last. With the ghost `late` the side had, when it took
the message, closed the stream it accepted for the message's origin. -/
inductive Reader
  | idle
  | got (m : Msg) (late : Bool)
  | creating (m : Msg) (late : Bool)
  | filling (k : ℕ) (m : Msg) (late : Bool)
deriving DecidableEq

structure Handled where
  msg : Msg
  late : Bool
  into : Option ℕ
deriving DecidableEq

structure Endpoint where
  nextStreamId : ℕ
  allocated : List ℕ
  streams : List (ℕ × ℕ)
  objects : List Object
  sendQueue : List Msg
  sendChannel : List Msg
  reader : Reader
  accepted : List ℕ
  handled : List Handled
deriving DecidableEq

abbrev Half := Threads Endpoint Call

structure Outcome where
  isFromShareMemory : Bool
  room : Bool
  sent : Bool
deriving DecidableEq

namespace Endpoint

def emplace (e : Endpoint) (id : ℕ) (source : Option ℕ) : Endpoint :=
  { e with
    objects := e.objects ++ [⟨id, .opened, false, source⟩]
    streams := if (e.streams.lookup id).isSome then e.streams else (id, e.objects.length) :: e.streams }

def erase (e : Endpoint) (id : ℕ) : Endpoint :=
  { e with streams := e.streams.filter fun p => p.1 ≠ id }

def setObject (e : Endpoint) (k : ℕ) (o : Object) : Endpoint :=
  { e with objects := e.objects.set k o }

def send (e : Endpoint) (m : Msg) : Option Channel → Endpoint
  | none => e
  | some .ring => { e with sendQueue := e.sendQueue ++ [m] }
  | some .frames => { e with sendChannel := e.sendChannel ++ [m] }

/-- `flush` behind its check of the state. -/
def put (e : Endpoint) (out : Outcome) (k : ℕ) (o : Object) : Endpoint :=
  let fallback := o.inFallbackState || !out.isFromShareMemory
  (e.setObject k { o with inFallbackState := fallback }).send ⟨o.id, .data, k⟩
    (if fallback then (if out.sent then some .frames else none) else if out.room then some .ring else none)

/-- `close` behind its `clean`. -/
def notify (e : Endpoint) (out : Outcome) (k : ℕ) (o : Object) : Endpoint :=
  if !o.inFallbackState && out.room then e.send ⟨o.id, .closed, k⟩ (some .ring)
  else e.send ⟨o.id, .streamClose, k⟩ (if out.sent then some .frames else none)

def advance (out : Outcome) (e : Endpoint) : Call → Option (Endpoint × Call)
  | .count id => some (e, if (e.streams.lookup id).isSome then .returned else .emplace id)
  | .emplace id => some (e.emplace id none, .returned)
  | .put k => e.objects[k]?.map fun o => (e.put out k o, .returned)
  | .erase k old => e.objects[k]?.map fun o => (e.erase o.id, if old = .opened then .notify k else .returned)
  | .notify k => e.objects[k]?.map fun o => (e.notify out k o, .returned)
  | .returned => none

/-- The first half of `get_stream`: the map is searched. Data for which there is no stream is recycled
unless the server makes one. -/
def getStream (p : Party) (e : Endpoint) (m : Msg) (late : Bool) : Endpoint :=
  match e.streams.lookup m.seqId with
  | some k => { e with reader := .filling k m late }
  | none =>
    if m.kind = .data then
      if p = .server then { e with reader := .creating m late }
      else { e with reader := .idle, handled := e.handled ++ [⟨m, late, none⟩] }
    else { e with reader := .idle }

def handleStreamClose (e : Endpoint) (m : Msg) (late : Bool) : Endpoint :=
  match e.streams.lookup m.seqId with
  | some k => { e.erase m.seqId with reader := .filling k m late }
  | none => { e with reader := .idle }

/-- The second half of `get_stream`: the new stream goes into the map and to the accept channel. -/
def create (e : Endpoint) (m : Msg) (late : Bool) : Endpoint :=
  { e.emplace m.seqId (some m.origin) with
    reader := .filling e.objects.length m late
    accepted := e.accepted ++ [e.objects.length] }

def handleStreamMessage (e : Endpoint) (k : ℕ) (o : Object) (m : Msg) (late : Bool) : Endpoint :=
  if m.kind = .data then
    { e with reader := .idle, handled := e.handled ++ [⟨m, late, if o.state = .closed then none else some k⟩] }
  else
    { e.setObject k (if o.state = .opened then { o with state := .halfClosed } else o) with reader := .idle }

def read (p : Party) (e : Endpoint) : Option Endpoint :=
  match e.reader with
  | .idle => none
  | .got m late => some (if m.kind = .streamClose then e.handleStreamClose m late else e.getStream p m late)
  | .creating m late => some (e.create m late)
  | .filling k m late => e.objects[k]?.map fun o => e.handleStreamMessage k o m late

def closedFor (e : Endpoint) (origin : ℕ) : Bool :=
  e.objects.any fun o => o.source = some origin ∧ o.state = .closed

def outgoing (e : Endpoint) : Channel → List Msg
  | .ring => e.sendQueue
  | .frames => e.sendChannel

def setOutgoing (e : Endpoint) (ms : List Msg) : Channel → Endpoint
  | .ring => { e with sendQueue := ms }
  | .frames => { e with sendChannel := ms }

end Endpoint

inductive Act
  | openStream
  | flush (k : ℕ)
  | close (k : ℕ)
  | reset (k : ℕ)
  | call (i : ℕ) (out : Outcome)
  | read
deriving DecidableEq

def act (p : Party) (h : Half) : Act → Option Half
  | .openStream =>
    let id := u32 (h.shared.nextStreamId + 1)
    some ⟨{ h.shared with nextStreamId := id, allocated := h.shared.allocated ++ [id] }, h.calls ++ [.count id]⟩
  | .flush k => h.shared.objects[k]?.bind fun o =>
    if o.state = .opened then some { h with calls := h.calls ++ [.put k] } else none
  | .close k => h.shared.objects[k]?.map fun o =>
    ⟨h.shared.setObject k { o with state := .closed },
      h.calls ++ [if o.state = .closed then .returned else .erase k o.state]⟩
  | .reset k => h.shared.objects[k]?.bind fun o =>
    if o.state = .opened then
      some { h with shared := h.shared.setObject k { o with inFallbackState := false } }
    else none
  | .call i out => Threads.step (Endpoint.advance out) h i
  | .read => (h.shared.read p).map fun e => { h with shared := e }

inductive Move
  | act (a : Act)
  | pop (c : Channel)
deriving DecidableEq

abbrev State := Party → Half

def take (mine : Half) (m : Msg) : Half :=
  { mine with shared := { mine.shared with reader := .got m (mine.shared.closedFor m.origin) } }

def step (serverOpens : Bool) (s : State) : Party × Move → Option State
  | (p, .act a) =>
    if p = .server ∧ a = .openStream ∧ serverOpens = false then none
    else (act p (s p) a).map fun h => Function.update s p h
  | (p, .pop c) =>
    match (s p).shared.reader, (s p.peer).shared.outgoing c with
    | .idle, m :: ms => some (Function.update (Function.update s p.peer
        { s p.peer with shared := (s p.peer).shared.setOutgoing ms c }) p (take (s p) m))
    | _, _ => none

def Endpoint.new (p : Party) : Endpoint := ⟨p.base, [], [], [], [], [], .idle, [], []⟩

def start : State := fun p => ⟨.new p, []⟩

def system (serverOpens : Bool) : System State (Party × Move) where
  initial s := s = start
  step := step serverOpens

variable {p : Party} {e e' : Endpoint} {h h' : Half} {k id : ℕ} {o o' : Object} {m : Msg} {late : Bool}
  {s t : State} {serverOpens : Bool}

def Endpoint.named (e : Endpoint) : List (ℕ × Option ℕ) := e.objects.map fun o => (o.id, o.source)

def Endpoint.Names (e : Endpoint) (k id : ℕ) : Prop := ∃ source, e.named[k]? = some (id, source)

theorem named_setObject (ho : e.objects[k]? = some o) (hid : o'.id = o.id) (hsource : o'.source = o.source) :
    (e.setObject k o').named = e.named := by
  rw [Endpoint.named, Endpoint.setObject, List.map_set, hid, hsource]
  apply List.ext_getElem?
  intro i
  rw [List.getElem?_set]
  split_ifs with hi hlt
  · subst hi
    rw [Endpoint.named, List.getElem?_map, ho, Option.map_some]
  · subst hi
    rw [Endpoint.named]
    exact (List.getElem?_eq_none (not_lt.mp hlt)).symm
  · rfl

theorem named_emplace (e : Endpoint) (id : ℕ) (source : Option ℕ) :
    (e.emplace id source).named = e.named ++ [(id, source)] := by
  rw [Endpoint.named, Endpoint.emplace, List.map_append]
  rfl

theorem length_named (e : Endpoint) : e.named.length = e.objects.length := List.length_map _

theorem named_of_getElem? (ho : e.objects[k]? = some o) : e.named[k]? = some (o.id, o.source) := by
  rw [Endpoint.named, List.getElem?_map, ho, Option.map_some]

theorem getElem?_of_prefix {α : Type*} {l l' : List α} {a : α} (hle : l <+: l') (hk : l[k]? = some a) :
    l'[k]? = some a := by
  obtain ⟨new, rfl⟩ := hle
  rw [List.getElem?_append_left (List.getElem?_eq_some_iff.mp hk).1, hk]

theorem Endpoint.Names.mono (hk : e.Names k id) (hle : e.named <+: e'.named) : e'.Names k id := by
  obtain ⟨source, hk⟩ := hk
  exact ⟨source, getElem?_of_prefix hle hk⟩

def Call.opening : Call → Option ℕ
  | .count id | .emplace id => some id
  | _ => none

structure Local (p : Party) (e : Endpoint) (calls : List Call) : Prop where
  counter : e.nextStreamId = u32 (p.base + e.allocated.length)
  allocated : e.allocated = (List.range e.allocated.length).map fun i => u32 (p.base + i + 1)
  opening : ∀ pc ∈ calls, ∀ id ∈ pc.opening, id ∈ e.allocated
  own : ∀ (k id : ℕ), e.named[k]? = some (id, none) → id ∈ e.allocated
  mapped : ∀ id k, (id, k) ∈ e.streams → e.Names k id
  sent : ∀ c, ∀ m ∈ e.outgoing c, e.Names m.origin m.seqId
  filling : ∀ k m late, e.reader = .filling k m late → e.Names k m.seqId
  filled : ∀ x ∈ e.handled, ∀ k, x.into = some k → e.Names k x.msg.seqId

def Reader.holds : Reader → Option Msg
  | .idle => none
  | .got m _ | .creating m _ | .filling _ m _ => some m

structure Heard (e theirs : Endpoint) : Prop where
  held : ∀ m ∈ e.reader.holds, theirs.Names m.origin m.seqId
  handled : ∀ x ∈ e.handled, theirs.Names x.msg.origin x.msg.seqId

namespace Local

variable {calls : List Call} {pc pc' : Call}

theorem push (hl : Local p e calls) (hpc : pc.opening = none) : Local p e (calls ++ [pc]) where
  __ := hl
  opening pc' hin id hid := by
    rw [List.mem_append, List.mem_singleton] at hin
    rcases hin with hin | rfl
    · exact hl.opening pc' hin id hid
    · rw [hpc] at hid
      cases hid

theorem move {pre post : List Call} (hl : Local p e (pre ++ pc :: post))
    (hpc : ∀ id ∈ pc'.opening, id ∈ pc.opening) : Local p e (pre ++ pc' :: post) where
  __ := hl
  opening x hin id hid := by
    rw [List.mem_append, List.mem_cons] at hin
    rcases hin with hin | rfl | hin
    · exact hl.opening x (List.mem_append_left _ hin) id hid
    · exact hl.opening pc (List.mem_append_right _ List.mem_cons_self) id (hpc id hid)
    · exact hl.opening x (List.mem_append_right _ (List.mem_cons_of_mem _ hin)) id hid

theorem setObject (hl : Local p e calls) (ho : e.objects[k]? = some o) (hid : o'.id = o.id)
    (hsource : o'.source = o.source) : Local p (e.setObject k o') calls := by
  have hnamed := named_setObject ho hid hsource
  have hnames : (e.setObject k o').Names = e.Names := by
    funext k id
    rw [Endpoint.Names, hnamed, Endpoint.Names]
  constructor
  · exact hl.counter
  · exact hl.allocated
  · exact hl.opening
  · rw [hnamed]
    exact hl.own
  · rw [hnames]
    exact hl.mapped
  · rw [hnames]
    exact hl.sent
  · rw [hnames]
    exact hl.filling
  · rw [hnames]
    exact hl.filled

theorem emplace (hl : Local p e calls) {source : Option ℕ} (hid : source = none → id ∈ e.allocated) :
    Local p (e.emplace id source) calls := by
  have hle : e.named <+: (e.emplace id source).named := by
    rw [named_emplace]
    exact List.prefix_append _ _
  constructor
  · exact hl.counter
  · exact hl.allocated
  · exact hl.opening
  · intro k i hk
    rw [named_emplace, List.getElem?_append] at hk
    split_ifs at hk with hlt
    · exact hl.own k i hk
    · rw [List.getElem?_singleton] at hk
      split_ifs at hk
      cases hk
      exact hid rfl
  · intro i k hik
    rw [Endpoint.emplace] at hik
    split_ifs at hik with hsome
    · exact (hl.mapped i k hik).mono hle
    · rw [List.mem_cons] at hik
      rcases hik with hik | hik
      · cases hik
        refine ⟨source, ?_⟩
        rw [named_emplace, ← length_named]
        exact List.getElem?_concat_length
      · exact (hl.mapped i k hik).mono hle
  · exact fun c m hm => (hl.sent c m hm).mono hle
  · exact fun k m late hr => (hl.filling k m late hr).mono hle
  · exact fun x hx k hk => (hl.filled x hx k hk).mono hle

theorem erase (hl : Local p e calls) (id : ℕ) : Local p (e.erase id) calls where
  __ := hl
  mapped i k hik := hl.mapped i k (List.mem_of_mem_filter hik)

theorem send (hl : Local p e calls) (hm : e.Names m.origin m.seqId) (way : Option Channel) :
    Local p (e.send m way) calls := by
  have hadd (ms : List Msg) (hms : ∀ x ∈ ms, e.Names x.origin x.seqId) :
      ∀ x ∈ ms ++ [m], e.Names x.origin x.seqId := by
    intro x hx
    rw [List.mem_append, List.mem_singleton] at hx
    rcases hx with hx | rfl
    · exact hms x hx
    · exact hm
  cases way with
  | none => exact hl
  | some c =>
    cases c
    all_goals
      refine { hl with sent := ?_ }
      intro c
      cases c
    · exact hadd _ (hl.sent .ring)
    · exact hl.sent .frames
    · exact hl.sent .ring
    · exact hadd _ (hl.sent .frames)

theorem wait (hl : Local p e calls) {r : Reader} (hr : ∀ k m late, r = .filling k m late → e.Names k m.seqId) :
    Local p { e with reader := r } calls where
  __ := hl
  filling := hr

theorem finish (hl : Local p e calls) {x : Handled} (hx : ∀ k, x.into = some k → e.Names k x.msg.seqId) :
    Local p { e with reader := .idle, handled := e.handled ++ [x] } calls where
  __ := hl
  filling := fun _ _ _ hr => by cases hr
  filled := by
    intro y hy
    rw [List.mem_append, List.mem_singleton] at hy
    rcases hy with hy | rfl
    · exact hl.filled y hy
    · exact hx

theorem openStream (hl : Local p e calls) (hid : id = u32 (e.nextStreamId + 1)) :
    Local p { e with nextStreamId := id, allocated := e.allocated ++ [id] } (calls ++ [.count id]) := by
  have hnext : id = u32 (p.base + e.allocated.length + 1) := by
    rw [hid, hl.counter, u32, u32, u32, Nat.mod_add_mod]
  constructor
  · rw [List.length_append, List.length_singleton, ← add_assoc]
    exact hnext
  · rw [List.length_append, List.length_singleton, List.range_succ, List.map_append, ← hl.allocated, hnext]
    rfl
  · intro pc hpc i hi
    rw [List.mem_append, List.mem_singleton] at hpc
    rcases hpc with hpc | rfl
    · exact List.mem_append_left _ (hl.opening pc hpc i hi)
    · cases hi
      exact List.mem_append_right _ List.mem_cons_self
  · exact fun k i hk => List.mem_append_left _ (hl.own k i hk)
  · exact hl.mapped
  · exact hl.sent
  · exact hl.filling
  · exact hl.filled

end Local

structure Ages (o o' : Object) : Prop where
  id : o'.id = o.id
  source : o'.source = o.source
  opened : o'.state = .opened → o.state = .opened
  closed : o.state = .closed → o'.state = .closed

theorem Ages.refl (o : Object) : Ages o o := ⟨rfl, rfl, fun h => h, fun h => h⟩

def Endpoint.Evolves (e e' : Endpoint) : Prop :=
  ∀ (k : ℕ) (o : Object), e.objects[k]? = some o → ∃ o', e'.objects[k]? = some o' ∧ Ages o o'

structure Keeps (e e' : Endpoint) : Prop where
  ages : e.Evolves e'
  heard : ∀ theirs, Heard e theirs → Heard e' theirs

theorem Endpoint.Evolves.names (hk : e.Evolves e') : e.named <+: e'.named := by
  rw [List.prefix_iff_getElem?]
  intro i hi
  rw [length_named] at hi
  obtain ⟨o', ho', ha⟩ := hk i _ (List.getElem?_eq_getElem hi)
  rw [named_of_getElem? ho', ha.id, ha.source]
  simp only [Endpoint.named, List.getElem_map]

theorem Endpoint.Evolves.of_eq (hn : e'.objects = e.objects) : e.Evolves e' :=
  fun _ o ho => ⟨o, hn ▸ ho, .refl o⟩

theorem Keeps.of_eq (hn : e'.objects = e.objects) (hr : e'.reader = e.reader) (hh : e'.handled = e.handled) :
    Keeps e e' where
  ages := .of_eq hn
  heard := fun _ h => ⟨by rw [hr]; exact h.held, by rw [hh]; exact h.handled⟩

theorem Keeps.trans {e'' : Endpoint} (h : Keeps e e') (h' : Keeps e' e'') : Keeps e e'' where
  ages k o ho := by
    obtain ⟨o', ho', ha⟩ := h.ages k o ho
    obtain ⟨o'', ho'', ha'⟩ := h'.ages k o' ho'
    exact ⟨o'', ho'', ha'.id.trans ha.id, ha'.source.trans ha.source, fun hs => ha.opened (ha'.opened hs),
      fun hs => ha'.closed (ha.closed hs)⟩
  heard _ hx := h'.heard _ (h.heard _ hx)

theorem keeps_send (e : Endpoint) (m : Msg) (way : Option Channel) : Keeps e (e.send m way) := by
  apply Keeps.of_eq
  all_goals
    cases way with
    | none => rfl
    | some c => cases c <;> rfl

theorem keeps_setObject (ho : e.objects[k]? = some o) (ha : Ages o o') : Keeps e (e.setObject k o') where
  ages i x hx := by
    by_cases hi : k = i
    · subst hi
      cases ho.symm.trans hx
      exact ⟨o', List.getElem?_set_self (List.getElem?_eq_some_iff.mp ho).1, ha⟩
    · exact ⟨x, (List.getElem?_set_ne hi).trans hx, .refl x⟩
  heard _ hx := ⟨hx.held, hx.handled⟩

theorem evolves_emplace (e : Endpoint) (id : ℕ) (source : Option ℕ) : e.Evolves (e.emplace id source) :=
  fun _ o ho => ⟨o, getElem?_of_prefix (List.prefix_append _ _) ho, .refl o⟩

theorem names_of_getElem? (ho : e.objects[k]? = some o) : e.Names k o.id := ⟨o.source, named_of_getElem? ho⟩

theorem put_keeps {calls : List Call} (hl : Local p e calls) (out : Outcome) (ho : e.objects[k]? = some o) :
    Local p (e.put out k o) calls ∧ Keeps e (e.put out k o) := by
  let o' : Object := { o with inFallbackState := o.inFallbackState || !out.isFromShareMemory }
  have hl' : Local p (e.setObject k o') calls := hl.setObject ho rfl rfl
  have hk : Keeps e (e.setObject k o') := keeps_setObject ho ⟨rfl, rfl, fun h => h, fun h => h⟩
  exact ⟨hl'.send ((names_of_getElem? ho).mono hk.ages.names) _, hk.trans (keeps_send _ _ _)⟩

theorem notify_keeps {calls : List Call} (hl : Local p e calls) (out : Outcome) (ho : e.objects[k]? = some o) :
    Local p (e.notify out k o) calls ∧ Keeps e (e.notify out k o) := by
  rw [Endpoint.notify]
  split_ifs
  all_goals exact ⟨hl.send (names_of_getElem? ho) _, keeps_send _ _ _⟩

theorem advance_keeps {pre post : List Call} {pc pc' : Call} {out : Outcome} (hl : Local p e (pre ++ pc :: post))
    (ha : e.advance out pc = some (e', pc')) : Local p e' (pre ++ pc' :: post) ∧ Keeps e e' := by
  cases pc with
  | count id =>
    cases ha
    refine ⟨hl.move ?_, .of_eq rfl rfl rfl⟩
    split_ifs
    · rintro _ ⟨⟩
    · exact fun _ hid => hid
  | emplace id =>
    cases ha
    have hid := hl.opening (.emplace id) (List.mem_append_right _ List.mem_cons_self) id rfl
    refine ⟨(hl.emplace fun _ => hid).move (by rintro _ ⟨⟩), evolves_emplace e id none, fun _ h => ?_⟩
    exact ⟨h.held, h.handled⟩
  | put k =>
    obtain ⟨o, ho, ha⟩ := Option.map_eq_some_iff.mp ha
    cases ha
    obtain ⟨hl', hk⟩ := put_keeps hl out ho
    exact ⟨hl'.move (by rintro _ ⟨⟩), hk⟩
  | erase k old =>
    obtain ⟨o, ho, ha⟩ := Option.map_eq_some_iff.mp ha
    cases ha
    refine ⟨(hl.erase o.id).move ?_, .of_eq rfl rfl rfl⟩
    split_ifs
    all_goals rintro _ ⟨⟩
  | notify k =>
    obtain ⟨o, ho, ha⟩ := Option.map_eq_some_iff.mp ha
    cases ha
    obtain ⟨hl', hk⟩ := notify_keeps hl out ho
    exact ⟨hl'.move (by rintro _ ⟨⟩), hk⟩
  | returned => cases ha

theorem mem_of_lookup {l : List (ℕ × ℕ)} (hk : l.lookup id = some k) : (id, k) ∈ l := by
  obtain ⟨pre, post, rfl, -⟩ := List.lookup_eq_some_iff.mp hk
  exact List.mem_append_right _ List.mem_cons_self

theorem Heard.finish {theirs : Endpoint} (hx : Heard e theirs) (hm : theirs.Names m.origin m.seqId) (into : Option ℕ) :
    Heard { e with reader := .idle, handled := e.handled ++ [⟨m, late, into⟩] } theirs where
  held := by rintro _ ⟨⟩
  handled := by
    intro x hin
    rw [List.mem_append, List.mem_singleton] at hin
    rcases hin with hin | rfl
    · exact hx.handled x hin
    · exact hm

theorem getStream_keeps {calls : List Call} (hl : Local p e calls) (hr : e.reader = .got m late) :
    Local p (e.getStream p m late) calls ∧ Keeps e (e.getStream p m late) := by
  have hm {theirs : Endpoint} (hx : Heard e theirs) : theirs.Names m.origin m.seqId := hx.held m (by rw [hr]; rfl)
  rw [Endpoint.getStream]
  split
  · next k hk =>
    refine ⟨hl.wait ?_, Endpoint.Evolves.of_eq rfl, fun _ hx => ⟨?_, hx.handled⟩⟩
    · rintro _ _ _ ⟨⟩
      exact hl.mapped _ _ (mem_of_lookup hk)
    · rintro _ ⟨⟩
      exact hm hx
  · split_ifs
    · refine ⟨hl.wait (by rintro _ _ _ ⟨⟩), Endpoint.Evolves.of_eq rfl, fun _ hx => ⟨?_, hx.handled⟩⟩
      rintro _ ⟨⟩
      exact hm hx
    · exact ⟨hl.finish (by rintro _ ⟨⟩), Endpoint.Evolves.of_eq rfl, fun _ hx => hx.finish (hm hx) none⟩
    · exact ⟨hl.wait (by rintro _ _ _ ⟨⟩), Endpoint.Evolves.of_eq rfl, fun _ hx => ⟨by rintro _ ⟨⟩, hx.handled⟩⟩

theorem handleStreamClose_keeps {calls : List Call} (hl : Local p e calls) (hr : e.reader = .got m late) :
    Local p (e.handleStreamClose m late) calls ∧ Keeps e (e.handleStreamClose m late) := by
  rw [Endpoint.handleStreamClose]
  split
  · next k hk =>
    refine ⟨(hl.erase m.seqId).wait ?_, Endpoint.Evolves.of_eq rfl, fun _ hx => ⟨?_, hx.handled⟩⟩
    · rintro _ _ _ ⟨⟩
      exact hl.mapped _ _ (mem_of_lookup hk)
    · rintro _ ⟨⟩
      exact hx.held m (by rw [hr]; rfl)
  · exact ⟨hl.wait (by rintro _ _ _ ⟨⟩), Endpoint.Evolves.of_eq rfl, fun _ hx => ⟨by rintro _ ⟨⟩, hx.handled⟩⟩

theorem create_keeps {calls : List Call} (hl : Local p e calls) (hr : e.reader = .creating m late) :
    Local p (e.create m late) calls ∧ Keeps e (e.create m late) := by
  have hl' : Local p (e.emplace m.seqId (some m.origin)) calls := hl.emplace nofun
  refine ⟨?_, evolves_emplace e _ _, fun _ hx => ⟨?_, hx.handled⟩⟩
  · refine { hl' with filling := ?_ }
    rintro _ _ _ ⟨⟩
    refine ⟨some m.origin, ?_⟩
    change (e.emplace m.seqId (some m.origin)).named[e.objects.length]? = _
    rw [named_emplace, ← length_named]
    exact List.getElem?_concat_length
  · rintro _ ⟨⟩
    exact hx.held m (by rw [hr]; rfl)

theorem handleStreamMessage_keeps {calls : List Call} (hl : Local p e calls) (hr : e.reader = .filling k m late)
    (ho : e.objects[k]? = some o) :
    Local p (e.handleStreamMessage k o m late) calls ∧ Keeps e (e.handleStreamMessage k o m late) := by
  rw [Endpoint.handleStreamMessage]
  by_cases hdata : m.kind = .data
  · rw [if_pos hdata]
    refine ⟨hl.finish ?_, Endpoint.Evolves.of_eq rfl, fun _ hx => hx.finish (hx.held m (by rw [hr]; rfl)) _⟩
    intro i hi
    have hik : i = k := by
      simp only [Option.ite_none_left_eq_some, Option.some.injEq] at hi
      exact hi.2.symm
    subst hik
    exact hl.filling i m late hr
  · rw [if_neg hdata]
    have hkeep (o' : Object) (ha : Ages o o') :
        Local p { e.setObject k o' with reader := .idle } calls ∧ Keeps e { e.setObject k o' with reader := .idle } :=
      ⟨(hl.setObject ho ha.id ha.source).wait (by rintro _ _ _ ⟨⟩), (keeps_setObject ho ha).ages,
        fun _ hx => ⟨by rintro _ ⟨⟩, hx.handled⟩⟩
    split_ifs with hopen
    · exact hkeep _ ⟨rfl, rfl, nofun, fun hclosed => by rw [hopen] at hclosed; cases hclosed⟩
    · exact hkeep o (.refl o)

theorem read_keeps {calls : List Call} (hl : Local p e calls) (hstep : e.read p = some e') :
    Local p e' calls ∧ Keeps e e' := by
  rw [Endpoint.read] at hstep
  split at hstep
  · cases hstep
  · next hr =>
    cases hstep
    split_ifs
    · exact handleStreamClose_keeps hl hr
    · exact getStream_keeps hl hr
  · next hr =>
    cases hstep
    exact create_keeps hl hr
  · next hr =>
    obtain ⟨o, ho, rfl⟩ := Option.map_eq_some_iff.mp hstep
    exact handleStreamMessage_keeps hl hr ho

theorem act_keeps {a : Act} (hl : Local p h.shared h.calls) (hstep : act p h a = some h') :
    Local p h'.shared h'.calls ∧ Keeps h.shared h'.shared := by
  cases a with
  | openStream =>
    cases hstep
    exact ⟨hl.openStream rfl, .of_eq rfl rfl rfl⟩
  | flush k =>
    obtain ⟨o, ho, hstep⟩ := Option.bind_eq_some_iff.mp hstep
    split_ifs at hstep
    cases hstep
    exact ⟨hl.push rfl, .of_eq rfl rfl rfl⟩
  | close k =>
    obtain ⟨o, ho, rfl⟩ := Option.map_eq_some_iff.mp hstep
    have hl' : Local p (h.shared.setObject k { o with state := .closed }) h.calls := hl.setObject ho rfl rfl
    refine ⟨hl'.push ?_, keeps_setObject ho ⟨rfl, rfl, nofun, fun _ => rfl⟩⟩
    split_ifs <;> rfl
  | reset k =>
    obtain ⟨o, ho, hstep⟩ := Option.bind_eq_some_iff.mp hstep
    split_ifs at hstep
    cases hstep
    exact ⟨hl.setObject ho rfl rfl, keeps_setObject ho ⟨rfl, rfl, fun h => h, fun h => h⟩⟩
  | call i out =>
    obtain ⟨pre, pc, post, e', pc', hcalls, -, ha, rfl⟩ := Threads.step_cases hstep
    rw [hcalls] at hl
    exact advance_keeps hl ha
  | read =>
    obtain ⟨e', hr, rfl⟩ := Option.map_eq_some_iff.mp hstep
    exact read_keeps hl hr

theorem step_cases {x : Party × Move} (hstep : step serverOpens s x = some t) :
    (∃ p a h, x = (p, .act a) ∧ (p = .server → a = .openStream → serverOpens = true) ∧ act p (s p) a = some h ∧
      t = Function.update s p h) ∨
    ∃ p c m ms, x = (p, .pop c) ∧ (s p).shared.reader = .idle ∧ (s p.peer).shared.outgoing c = m :: ms ∧
      t = Function.update (Function.update s p.peer
        { s p.peer with shared := (s p.peer).shared.setOutgoing ms c }) p (take (s p) m) := by
  obtain ⟨p, a | c⟩ := x
  · left
    rw [step] at hstep
    split_ifs at hstep with hallow
    obtain ⟨h, hh, rfl⟩ := Option.map_eq_some_iff.mp hstep
    refine ⟨p, a, h, rfl, fun hp ha => ?_, hh, rfl⟩
    by_contra hopens
    exact hallow ⟨hp, ha, Bool.eq_false_iff.mpr hopens⟩
  · right
    rw [step] at hstep
    split at hstep
    · next m ms hidle hout =>
      cases hstep
      exact ⟨p, c, m, ms, rfl, hidle, hout, rfl⟩
    · cases hstep

theorem peer_ne (p : Party) : p.peer ≠ p := by
  cases p <;> exact nofun

theorem peer_peer (p : Party) : p.peer.peer = p := by
  cases p <;> rfl

theorem eq_or_eq_peer (p q : Party) : q = p ∨ q = p.peer := by
  cases p <;> cases q <;> simp [Party.peer]

structure Consistent (s : State) : Prop where
  sides : ∀ p, Local p (s p).shared (s p).calls
  heard : ∀ p, Heard (s p).shared (s p.peer).shared

theorem Heard.mono {theirs theirs' : Endpoint} (hx : Heard e theirs) (hle : theirs.named <+: theirs'.named) :
    Heard e theirs' :=
  ⟨fun m hm => (hx.held m hm).mono hle, fun x hin => (hx.handled x hin).mono hle⟩

theorem Local.setOutgoing {calls : List Call} {c : Channel} {ms : List Msg} (hl : Local p e calls)
    (hout : e.outgoing c = m :: ms) : Local p (e.setOutgoing ms c) calls := by
  have hms : ∀ x ∈ ms, e.Names x.origin x.seqId := by
    intro x hx
    apply hl.sent c
    rw [hout]
    exact List.mem_cons_of_mem _ hx
  cases c
  all_goals
    refine { hl with sent := ?_ }
    intro c
    cases c
  · exact hms
  · exact hl.sent .frames
  · exact hl.sent .ring
  · exact hms

theorem named_setOutgoing (e : Endpoint) (ms : List Msg) (c : Channel) : (e.setOutgoing ms c).named = e.named := by
  cases c <;> rfl

theorem heard_setOutgoing {theirs : Endpoint} {ms : List Msg} {c : Channel} (hx : Heard e theirs) :
    Heard (e.setOutgoing ms c) theirs := by
  cases c
  · exact ⟨hx.held, hx.handled⟩
  · exact ⟨hx.held, hx.handled⟩

theorem Consistent.act {a : Act} (hc : Consistent s) (hstep : act p (s p) a = some h) :
    Consistent (Function.update s p h) := by
  obtain ⟨hl, hk⟩ := act_keeps (hc.sides p) hstep
  constructor
  · intro q
    rcases eq_or_eq_peer p q with rfl | rfl
    · rw [Function.update_self]
      exact hl
    · rw [Function.update_of_ne (peer_ne p)]
      exact hc.sides _
  · intro q
    rcases eq_or_eq_peer p q with rfl | rfl
    · rw [Function.update_self, Function.update_of_ne (peer_ne q)]
      exact hk.heard _ (hc.heard q)
    · rw [peer_peer, Function.update_self, Function.update_of_ne (peer_ne p)]
      have hx := hc.heard p.peer
      rw [peer_peer] at hx
      exact hx.mono hk.ages.names

theorem Consistent.pop {c : Channel} {ms : List Msg} (hc : Consistent s)
    (hout : (s p.peer).shared.outgoing c = m :: ms) :
    Consistent (Function.update (Function.update s p.peer
        { s p.peer with shared := (s p.peer).shared.setOutgoing ms c }) p (take (s p) m)) := by
  have hm : (s p.peer).shared.Names m.origin m.seqId := by
    apply (hc.sides p.peer).sent c
    rw [hout]
    exact List.mem_cons_self
  constructor
  · intro q
    rcases eq_or_eq_peer p q with rfl | rfl
    · rw [Function.update_self]
      exact (hc.sides q).wait (by rintro _ _ _ ⟨⟩)
    · rw [Function.update_of_ne (peer_ne p), Function.update_self]
      exact (hc.sides p.peer).setOutgoing hout
  · intro q
    rcases eq_or_eq_peer p q with rfl | rfl
    · rw [Function.update_self, Function.update_of_ne (peer_ne q), Function.update_self]
      have hx := hc.heard q
      have htake : Heard (take (s q) m).shared (s q.peer).shared := by
        refine ⟨?_, hx.handled⟩
        rintro _ ⟨⟩
        exact hm
      apply htake.mono
      rw [named_setOutgoing]
    · rw [peer_peer, Function.update_self, Function.update_of_ne (peer_ne p), Function.update_self]
      have hx := hc.heard p.peer
      rw [peer_peer] at hx
      exact heard_setOutgoing ⟨hx.held, hx.handled⟩

theorem Consistent.step {x : Party × Move} (hc : Consistent s) (hstep : step serverOpens s x = some t) :
    Consistent t := by
  obtain ⟨p, a, h, -, -, hact, rfl⟩ | ⟨p, c, m, ms, -, -, hout, rfl⟩ := step_cases hstep
  · exact hc.act hact
  · exact hc.pop hout

theorem consistent_start : Consistent start := by
  constructor
  · intro p
    constructor
    · cases p <;> rfl
    · rfl
    · exact nofun
    · exact nofun
    · exact nofun
    · intro c
      cases c <;> exact nofun
    · exact nofun
    · exact nofun
  · exact fun p => ⟨nofun, nofun⟩

theorem consistent_of_run {ok : State → Party × Move → Prop} (hrun : (system serverOpens).Reachable ok s) :
    Consistent s := by
  apply hrun.invariant
  · rintro s rfl
    exact consistent_start
  · exact fun s x t hc _ hstep => hc.step hstep

def Endpoint.Own (e : Endpoint) (k : ℕ) : Prop := ∃ o, e.objects[k]? = some o ∧ o.source = none

def Unmixed (s : State) : Prop :=
  ∀ p, ∀ x ∈ (s p).shared.handled, ∀ k, x.into = some k → (s p).shared.Own k → ¬(s p.peer).shared.Own x.msg.origin

theorem own_allocated {calls : List Call} (hl : Local p e calls) (hown : e.Own k) (hid : e.Names k id) :
    id ∈ e.allocated := by
  obtain ⟨o, ho, hsource⟩ := hown
  obtain ⟨source, hid⟩ := hid
  have hk := named_of_getElem? ho
  rw [hsource] at hk
  cases hk.symm.trans hid
  exact hl.own k o.id hk

theorem Consistent.unmixed (hc : Consistent s)
    (hdisj : (s .client).shared.allocated.Disjoint (s .server).shared.allocated) : Unmixed s := by
  intro p x hx k hk hmine htheirs
  have h₁ := own_allocated (hc.sides p) hmine ((hc.sides p).filled x hx k hk)
  have h₂ := own_allocated (hc.sides p.peer) htheirs ((hc.heard p).handled x hx)
  cases p with
  | client => exact hdisj h₁ h₂
  | server => exact hdisj h₂ h₁

theorem Local.mem_allocated {calls : List Call} (hl : Local p e calls) (hlt : e.allocated.length < 2 ^ 30) (id : ℕ) :
    id ∈ e.allocated ↔ p.base < id ∧ id ≤ p.base + e.allocated.length := by
  have hbase : p.base ≤ 2 := by cases p <;> decide
  rw [hl.allocated, List.mem_map, List.length_map, List.length_range]
  constructor
  · rintro ⟨i, hi, rfl⟩
    rw [List.mem_range] at hi
    rw [u32, Nat.mod_eq_of_lt (by omega)]
    omega
  · rintro ⟨hlow, hhigh⟩
    refine ⟨id - p.base - 1, List.mem_range.mpr (by omega), ?_⟩
    rw [u32, Nat.mod_eq_of_lt (by omega)]
    omega

theorem streams_unmixed_iff (hrun : (system true).Run s) (hclient : (s .client).shared.allocated.length < 2 ^ 30)
    (hserver : (s .server).shared.allocated.length < 2 ^ 30) :
    ((s .client).shared.allocated.Disjoint (s .server).shared.allocated ∧ Unmixed s ↔
      (s .client).shared.allocated.length ≤ 1 ∨ (s .server).shared.allocated = []) ∧
    ((∀ id ∈ (s .client).shared.allocated, Odd id) ∧ (∀ id ∈ (s .server).shared.allocated, Even id) ↔
      (s .client).shared.allocated = [] ∧ (s .server).shared.allocated = []) := by
  have hc := consistent_of_run hrun
  have hcl := (hc.sides .client).mem_allocated hclient
  have hsv := (hc.sides .server).mem_allocated hserver
  simp only [Party.base] at hcl hsv
  constructor
  · constructor
    · -- the client's second id is the server's first one
      rintro ⟨hdisj, -⟩
      by_contra hcond
      rw [not_or, not_le, ← ne_eq, ← List.length_pos_iff] at hcond
      exact hdisj ((hcl 3).mpr (by omega)) ((hsv 3).mpr (by omega))
    · intro hcond
      have hdisj : (s .client).shared.allocated.Disjoint (s .server).shared.allocated := by
        intro id hid hid'
        rw [hsv] at hid'
        rw [hcl] at hid
        rw [← List.length_eq_zero_iff] at hcond
        omega
      exact ⟨hdisj, hc.unmixed hdisj⟩
  · constructor
    · rintro ⟨hodd, heven⟩
      rw [← List.length_eq_zero_iff, ← List.length_eq_zero_iff]
      constructor
      · by_contra hpos
        exact absurd (hodd 2 ((hcl 2).mpr (by omega))) (by decide)
      · by_contra hpos
        exact absurd (heven 3 ((hsv 3).mpr (by omega))) (by decide)
    · rintro ⟨hempty, hempty'⟩
      rw [hempty, hempty']
      exact ⟨nofun, nofun⟩

def smooth : Outcome := ⟨true, true, true⟩

def opening (p : Party) (i : ℕ) : List (Party × Move) :=
  [(p, .act .openStream), (p, .act (.call i smooth)), (p, .act (.call i smooth))]

def flushing (p : Party) (k i : ℕ) : List (Party × Move) :=
  [(p, .act (.flush k)), (p, .act (.call i smooth))]

theorem run_of_runFrom {as : List (Party × Move)} (h : (system serverOpens).runFrom start as = some s) :
    (system serverOpens).Run s :=
  System.Reachable.runFrom (fun _ _ _ => trivial) (.initial rfl) h

def oneEach : List (Party × Move) :=
  opening .client 0 ++ opening .server 0 ++ flushing .client 0 1 ++
    [(.server, .pop .ring), (.server, .act .read), (.server, .act .read), (.server, .act .read)]

theorem streams_unmixed_one_each : ∃ s, (system true).runFrom start oneEach = some s ∧
    (s .server).shared.handled = [⟨⟨2, .data, 0⟩, false, some 1⟩] ∧
    (s .client).shared.allocated.Disjoint (s .server).shared.allocated ∧ Unmixed s := by
  have hsome : ((system true).runFrom start oneEach).isSome = true := by decide
  obtain ⟨s, hs⟩ := Option.isSome_iff_exists.mp hsome
  have hfacts : ((system true).runFrom start oneEach).map (fun s => ((s .client).shared.allocated,
      (s .server).shared.allocated, (s .server).shared.handled)) =
      some ([2], [3], [⟨⟨2, .data, 0⟩, false, some 1⟩]) := by decide
  rw [hs, Option.map_some, Option.some.injEq, Prod.mk.injEq, Prod.mk.injEq] at hfacts
  obtain ⟨hcl, hsv, hh⟩ := hfacts
  have hiff := (streams_unmixed_iff (run_of_runFrom hs) (by rw [hcl]; decide) (by rw [hsv]; decide)).1
  exact ⟨s, hs, hh, hiff.mpr (.inl (by rw [hcl]; decide))⟩

def twoAndOne : List (Party × Move) :=
  opening .client 0 ++ opening .client 1 ++ opening .server 0 ++ flushing .client 1 2 ++
    [(.server, .pop .ring), (.server, .act .read), (.server, .act .read)]

theorem delivered_to_own_stream : ∃ s, (system true).runFrom start twoAndOne = some s ∧
    (s .client).shared.allocated = [2, 3] ∧ (s .server).shared.allocated = [3] ∧ ¬Unmixed s := by
  have hfacts : ((system true).runFrom start twoAndOne).map (fun s => ((s .client).shared.allocated,
      (s .server).shared.allocated, (s .server).shared.handled)) =
      some ([2, 3], [3], [⟨⟨3, .data, 1⟩, false, some 0⟩]) := by decide
  have hobjects : ((system true).runFrom start twoAndOne).map (fun s => ((s .client).shared.objects[1]?,
      (s .server).shared.objects[0]?)) =
      some (some ⟨3, .opened, false, none⟩, some ⟨3, .opened, false, none⟩) := by decide
  obtain ⟨s, hs, hfacts⟩ := Option.map_eq_some_iff.mp hfacts
  rw [hs, Option.map_some, Option.some.injEq, Prod.mk.injEq] at hobjects
  rw [Prod.mk.injEq, Prod.mk.injEq] at hfacts
  obtain ⟨hcl, hsv, hh⟩ := hfacts
  refine ⟨s, hs, hcl, hsv, fun hun => ?_⟩
  have hin : (⟨⟨3, .data, 1⟩, false, some 0⟩ : Handled) ∈ (s .server).shared.handled := by
    rw [hh]
    exact List.mem_cons_self
  exact hun .server _ hin 0 rfl ⟨_, hobjects.2, rfl⟩ ⟨_, hobjects.1, rfl⟩

end Shmipc.Connection
