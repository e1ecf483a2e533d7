import Shmipc.LateCalls
import Shmipc.Registry

/-!
The sessions of a process that share one buffer manager. The last one that closes unmaps the region, and
the streams that the user keeps are still there.
-/

namespace Shmipc.UnmappedRegion

open ByteMemory LinkedBuffer LateCalls
open Registry (wrap32 wrap32_of_small)
open Transition

/-- `streams` maps ids to numbers of streams, and `pool` holds such numbers. -/
structure Session where
  shutdown : Bool
  streams : List (ℕ × ℕ)
  pool : List ℕ
deriving DecidableEq

/-- The streams of the process, each with the number of its session. -/
structure Process where
  mapped : Bool
  refCount : ℤ
  sessions : List Session
  handles : List (ℕ × Stream)
deriving DecidableEq

inductive Act
  /-- A further session that finds the manager in the registry. -/
  | create
  /-- `open_stream`, or `get_stream` on the server. -/
  | openStream (i id : ℕ)
  | call (k : ℕ) (op : Op)
  | message (i id : ℕ) (item : Pending)
  | closeElement (i id : ℕ)
  | streamClose (i id : ℕ)
  | popStream (i : ℕ)
  /-- The peer, and whoever else uses the region. -/
  | others (m : Mem)
  /-- `Session::close`, also as the end of `exit_err`. -/
  | close (i : ℕ)

def Session.erase (id : ℕ) (t : Session) : Session := { t with streams := t.streams.filter fun x => x.1 ≠ id }

namespace Process

def onSession (p : Process) (i : ℕ) (f : Session → Session) : Process := { p with sessions := p.sessions.modify i f }

def setStream (p : Process) (k i : ℕ) (s : Stream) : Process := { p with handles := p.handles.set k (i, s) }

-- a stream that is closed now leaves the map in its `clean`
def update (p : Process) (k i : ℕ) (s s' : Stream) : Process :=
  if s.state ≠ .closed ∧ s'.state = .closed then (p.setStream k i s').onSession i (Session.erase s.id) else p.setStream k i s'

def place (p : Process) (k i : ℕ) : Answer → Process
  | .placed .pooled _ => p.onSession i fun t => { t with pool := t.pool ++ [k] }
  | _ => p

/-- What `get_stream` finds while the read loop of the session runs. -/
def find (p : Process) (i id : ℕ) : Option (ℕ × ℕ × Stream) :=
  p.sessions[i]?.bind fun t => if t.shutdown then none else (t.streams.lookup id).bind fun k => p.handles[k]?.map fun x => (k, x)

def openStream (p : Process) (i id : ℕ) : Process :=
  match p.sessions[i]? with
  | none => p
  | some t =>
    if t.shutdown ∨ (t.streams.lookup id).isSome then p
    else
      onSession { p with handles := p.handles ++ [(i, .empty id)] } i fun t => { t with streams := (id, p.handles.length) :: t.streams }

def create (p : Process) : Process :=
  if p.mapped ∧ p.refCount + 1 < 2 ^ 31 then
    { p with refCount := wrap32 (p.refCount + 1), sessions := p.sessions ++ [⟨false, [], []⟩] }
  else p

def halfClose (p : Process) (i id : ℕ) : Process :=
  match p.find i id with
  | none => p
  | some (k, j, s) => p.setStream k j s.halfClose

def streamClose (p : Process) (i id : ℕ) : Process :=
  match p.find i id with
  | none => p
  | some (k, j, s) => (p.setStream k j s.halfClose).onSession i (Session.erase id)

/-- `add_global_buffer_manager_ref_count(path, -1)`. -/
def release (p : Process) : Process :=
  { p with refCount := wrap32 (p.refCount + -1), mapped := if p.refCount + -1 ≤ 0 then false else p.mapped }

end Process

-- nothing is sent when the session is shut down
def stopped : Answers := ⟨3, true, fun _ => .ok (), fun _ => false, .ok ()⟩

def closeAll (bm : BufferManager) : List ℕ → Mem → Process → Option (Mem × Process)
  | [], m, p => some (m, p)
  | k :: rest, m, p => p.handles[k]?.bind fun x => (x.2.close bm stopped m).bind fun r =>
      closeAll bm rest r.1 (p.update k x.1 x.2 r.2.1)

def closeSession (bm : BufferManager) (m : Mem) (p : Process) (i : ℕ) : Option (Mem × Process) :=
  match p.sessions[i]? with
  | none => some (m, p)
  | some t =>
    if t.shutdown then some (m, p)
    else
      (closeAll bm t.pool m (p.onSession i fun t => { t with shutdown := true, pool := [] })).bind fun r =>
      r.2.sessions[i]?.bind fun t =>
      (closeAll bm (t.streams.map Prod.snd) r.1 (r.2.onSession i fun t => { t with streams := [] })).map fun q => (q.1, q.2.release)

/-- What does not apply changes nothing. -/
def step (bm : BufferManager) (m : Mem) (p : Process) : Act → Option (Mem × Process × Option Answer)
  | .create => some (m, p.create, none)
  | .openStream i id => some (m, p.openStream i id, none)
  | .call k op =>
    match p.handles[k]? with
    | none => some (m, p, none)
    | some (i, s) => (op.call bm m s).map fun r => (r.1, (p.update k i s r.2.1).place k i r.2.2, some r.2.2)
  | .message i id item =>
    match p.find i id with
    | none => some (m, p, none)
    | some (k, j, s) => (s.fillDataToReadBuffer bm m item).map fun r => (r.1, p.setStream k j r.2, none)
  | .closeElement i id => some (m, p.halfClose i id, none)
  | .streamClose i id => some (m, p.streamClose i id, none)
  | .popStream i => some (m, p.onSession i fun t => { t with pool := t.pool.tail }, none)
  | .others m' => some (if p.mapped then m' else m, p, none)
  | .close i => (closeSession bm m p i).map fun r => (r.1, r.2, none)

/-- One session that has just got its manager. -/
def start : Process := ⟨true, 1, [⟨false, [], []⟩], []⟩

def system (bm : BufferManager) : System (Mem × Process) Act where
  initial x := x.2 = start
  step x a := (step bm x.1 x.2 a).map fun r => (r.1, r.2.1)

-- `closing` sessions are shut down and have not given up their reference
structure Inv (closing : ℕ) (p : Process) : Prop where
  settled : ∀ x ∈ p.handles, Settled x.2
  count : p.refCount = (p.sessions.map Session.shutdown).count false + closing
  small : p.refCount < 2 ^ 31
  gone : p.mapped = false → p.refCount = 0

variable {bm : BufferManager} {m m' : Mem} {p q : Process} {closing i j k id : ℕ} {s s' : Stream} {t : Session} {a : Act}

theorem flags_modify {f : Session → Session} (hf : ∀ t, (f t).shutdown = t.shutdown) (l : List Session) (i : ℕ) :
    (l.modify i f).map Session.shutdown = l.map Session.shutdown := by
  apply List.ext_getElem?
  intro j
  rw [List.getElem?_map, List.getElem?_modify, List.getElem?_map]
  cases l[j]? with
  | none => rfl
  | some t =>
    change some (Session.shutdown (if i = j then f t else t)) = some t.shutdown
    split_ifs
    · rw [hf]
    · rfl

theorem find_running (h : p.find i id = some (k, j, s)) :
    ∃ t, p.sessions[i]? = some t ∧ t.shutdown = false ∧ p.handles[k]? = some (j, s) := by
  obtain ⟨t, ht, h⟩ := Option.bind_eq_some_iff.mp h
  split_ifs at h with hshut
  obtain ⟨n, -, h⟩ := Option.bind_eq_some_iff.mp h
  obtain ⟨x, hx, h⟩ := Option.map_eq_some_iff.mp h
  cases h
  exact ⟨t, ht, Bool.eq_false_iff.mpr hshut, hx⟩

namespace Inv

theorem onSession (h : Inv closing p) {f : Session → Session} (hf : ∀ t, (f t).shutdown = t.shutdown) : Inv closing (p.onSession i f) := by
  refine ⟨h.settled, ?_, h.small, h.gone⟩
  rw [Process.onSession, flags_modify hf]
  exact h.count

theorem setStream (h : Inv closing p) (hs : Settled s) : Inv closing (p.setStream k i s) := by
  refine ⟨fun x hx => ?_, h.count, h.small, h.gone⟩
  rcases List.mem_or_eq_of_mem_set hx with hx | rfl
  · exact h.settled x hx
  · exact hs

theorem update (h : Inv closing p) (hs : Settled s') : Inv closing (p.update k i s s') := by
  rw [Process.update]
  split_ifs
  · exact (h.setStream hs).onSession fun _ => rfl
  · exact h.setStream hs

theorem place (h : Inv closing p) (answer : Answer) : Inv closing (p.place k i answer) := by
  unfold Process.place
  split
  · exact h.onSession fun _ => rfl
  · exact h

theorem create (h : Inv 0 p) : Inv 0 p.create := by
  rw [Process.create]
  split_ifs with hroom
  · obtain ⟨hmapped, hroom⟩ := hroom
    have hcount := h.count
    have hwrap : wrap32 (p.refCount + 1) = p.refCount + 1 := wrap32_of_small (by omega) hroom
    refine ⟨h.settled, ?_, ?_, fun hg => ?_⟩
    · simp only [hwrap, List.map_append, List.count_append]
      rw [hcount]
      simp
    · simp only [hwrap]
      exact hroom
    · simp only at hg
      rw [hmapped] at hg
      cases hg
  · exact h

theorem openStream (h : Inv closing p) (i id : ℕ) : Inv closing (p.openStream i id) := by
  rw [Process.openStream]
  split
  · exact h
  · split_ifs
    · exact h
    · have hadded : Inv closing { p with handles := p.handles ++ [(i, .empty id)] } := by
        refine ⟨fun x hx => ?_, h.count, h.small, h.gone⟩
        rcases List.mem_append.mp hx with hx | hx
        · exact h.settled x hx
        · rw [List.mem_singleton.mp hx]
          rintro ⟨⟩
      exact hadded.onSession fun _ => rfl

theorem closeAll (h : Inv closing p) {ks : List ℕ} (hclose : closeAll bm ks m p = some (m', q)) : Inv closing q := by
  induction ks generalizing m p with
  | nil =>
    cases hclose
    exact h
  | cons k ks ih =>
    obtain ⟨x, hx, hclose⟩ := Option.bind_eq_some_iff.mp hclose
    obtain ⟨r, hr, hclose⟩ := Option.bind_eq_some_iff.mp hclose
    exact ih (h.update (close_settled (h.settled x (List.mem_of_getElem? hx)) hr)) hclose

theorem find (h : Inv closing p) (hfind : p.find i id = some (k, j, s)) : Settled s := by
  obtain ⟨-, -, -, hk⟩ := find_running hfind
  exact h.settled _ (List.mem_of_getElem? hk)

theorem shut (h : Inv 0 p) (ht : p.sessions[i]? = some t) (hrunning : t.shutdown = false) :
    Inv 1 (p.onSession i fun t => { t with shutdown := true, pool := [] }) := by
  refine ⟨h.settled, ?_, h.small, h.gone⟩
  have hset : (p.sessions.modify i fun t => { t with shutdown := true, pool := [] }).map Session.shutdown =
      (p.sessions.map Session.shutdown).set i true := by
    rw [List.modify_eq_set_getElem?, ht]
    exact List.map_set
  have hflag : (p.sessions.map Session.shutdown)[i]? = some false := by rw [List.getElem?_map, ht, Option.map_some, hrunning]
  obtain ⟨hlt, hflag⟩ := List.getElem?_eq_some_iff.mp hflag
  have hpos : 0 < (p.sessions.map Session.shutdown).count false := List.count_pos_iff.mpr (hflag ▸ List.getElem_mem hlt)
  have hcount : ((p.sessions.map Session.shutdown).set i true).count false + 1 = (p.sessions.map Session.shutdown).count false := by
    rw [List.count_set hlt, hflag]
    simp
    omega
  rw [Process.onSession, hset]
  have := h.count
  simp only
  omega

theorem release (h : Inv 1 p) : Inv 0 p.release := by
  have hcount := h.count
  have hsmall := h.small
  have hwrap : wrap32 (p.refCount + -1) = p.refCount + -1 := wrap32_of_small (by omega) (by omega)
  refine ⟨h.settled, ?_, ?_, fun hg => ?_⟩
  · rw [Process.release, hwrap]
    simp only
    omega
  · rw [Process.release, hwrap]
    simp only
    omega
  · rw [Process.release] at hg ⊢
    rw [hwrap]
    simp only at hg ⊢
    split_ifs at hg with hle
    · omega
    · have := h.gone hg
      omega

theorem closeSession (h : Inv 0 p) (hclose : closeSession bm m p i = some (m', q)) : Inv 0 q := by
  rw [UnmappedRegion.closeSession] at hclose
  split at hclose
  · cases hclose
    exact h
  · next t ht =>
    split_ifs at hclose with hshut
    · cases hclose
      exact h
    · obtain ⟨r, hpool, hclose⟩ := Option.bind_eq_some_iff.mp hclose
      obtain ⟨t', -, hclose⟩ := Option.bind_eq_some_iff.mp hclose
      obtain ⟨r', hmap, hclose⟩ := Option.map_eq_some_iff.mp hclose
      cases hclose
      have hshutting : Inv 1 (p.onSession i fun t => { t with shutdown := true, pool := [] }) := h.shut ht (Bool.eq_false_iff.mpr hshut)
      have htaken := (hshutting.closeAll hpool).onSession (i := i) (f := fun t => { t with streams := [] }) fun _ => rfl
      exact (htaken.closeAll hmap).release

theorem step {answer : Option Answer} (h : Inv 0 p) (hstep : step bm m p a = some (m', q, answer)) : Inv 0 q := by
  cases a with
  | create =>
    cases hstep
    exact h.create
  | openStream i id =>
    cases hstep
    exact h.openStream i id
  | call k op =>
    rw [UnmappedRegion.step] at hstep
    split at hstep
    · cases hstep
      exact h
    · next i s hk =>
      obtain ⟨r, hcall, hstep⟩ := Option.map_eq_some_iff.mp hstep
      cases hstep
      exact (h.update (call_settled (h.settled _ (List.mem_of_getElem? hk)) hcall)).place _
  | message i id item =>
    rw [UnmappedRegion.step] at hstep
    split at hstep
    · cases hstep
      exact h
    · obtain ⟨r, hfill, hstep⟩ := Option.map_eq_some_iff.mp hstep
      cases hstep
      exact h.setStream (fill_settled hfill)
  | closeElement i id =>
    cases hstep
    unfold Process.halfClose
    split
    · exact h
    · next hfind => exact h.setStream (halfClose_settled (h.find hfind))
  | streamClose i id =>
    cases hstep
    unfold Process.streamClose
    split
    · exact h
    · next hfind => exact (h.setStream (halfClose_settled (h.find hfind))).onSession fun _ => rfl
  | popStream i =>
    cases hstep
    exact h.onSession fun _ => rfl
  | others m₁ =>
    cases hstep
    exact h
  | close i =>
    obtain ⟨r, hclose, hstep⟩ := Option.map_eq_some_iff.mp hstep
    cases hstep
    exact h.closeSession hclose

end Inv

theorem inv_of_run {x : Mem × Process} (h : (system bm).Run x) : Inv 0 x.2 := by
  refine h.invariant (I := fun x => Inv 0 x.2) (fun x hx => ?_) fun x a y hx _ hstep => ?_
  · rw [show x.2 = start from hx]
    exact ⟨List.forall_mem_nil _, rfl, by decide, by rintro ⟨⟩⟩
  · obtain ⟨r, hr, hstep⟩ := Option.map_eq_some_iff.mp hstep
    cases hstep
    exact hx.step hr

open Built (threeSlots threeMem published)

def oneSent : Mem := (published threeSlots.manager threeMem [1]).getD threeMem

end Shmipc.UnmappedRegion
