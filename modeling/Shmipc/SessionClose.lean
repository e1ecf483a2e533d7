import Shmipc.Library.Threads
import Shmipc.Stream

/-!
`open_stream` of any number of threads and `get_stream` of the read loop against one `close` of the
session. A step is one load, one read-modify-write, or one section under a lock; a `Stream` is built in
the step that puts it into the map.
-/

namespace Shmipc.SessionClose

open Transition StreamRead

structure Object where
  id : ℕ
  state : StreamState
deriving DecidableEq

inductive Pc
  | isClosed
  | isHealthy
  | fetchAdd
  | count (id : ℕ)
  | find (id status : ℕ)
  | emplace (id : ℕ)
  | returned
deriving DecidableEq

/-- Where `Session::close` is. The streams in `rest` are still to be closed: those of the pool first, and
after the map was taken those that were in it. -/
inductive Closer
  | exchange
  | closing (rest : List ℕ) (taken : Bool)
  | erasing (id : ℕ) (rest : List ℕ) (taken : Bool)
  | taking
  | returned
deriving DecidableEq

structure Shared where
  shutdown : Bool
  unhealthy : Bool
  nextStreamId : ℕ
  streams : List (ℕ × ℕ)
  objects : List Object
  pool : List ℕ
  closer : Closer
deriving DecidableEq

abbrev State := Threads Shared Pc

def emplace (s : Shared) (id : ℕ) : Shared :=
  { s with
    objects := s.objects ++ [⟨id, .opened⟩]
    streams := if (s.streams.lookup id).isSome then s.streams else (id, s.objects.length) :: s.streams }

def advance (isClient : Bool) (s : Shared) : Pc → Option (Shared × Pc)
  | .isClosed => some (s, if s.shutdown then .returned else .isHealthy)
  | .isHealthy => some (s, if s.unhealthy then .returned else .fetchAdd)
  | .fetchAdd =>
    let id := u32 (s.nextStreamId + 1)
    some ({ s with nextStreamId := id }, .count id)
  | .count id => some (s, if (s.streams.lookup id).isSome then .returned else .emplace id)
  | .find id status =>
    some (s, if (s.streams.lookup id).isSome ∨ isClient ∨ status ≠ streamCode .opened then .returned else .emplace id)
  | .emplace id => some (emplace s id, .returned)
  | .returned => none

/-- A step of `Session::close`; closing a stream is its exchange of the state and, unless it was closed,
the `on_stream_close` of its `clean`. -/
def close (s : Shared) : Option Shared :=
  match s.closer with
  | .exchange =>
    some (if s.shutdown then { s with closer := .returned }
      else { s with shutdown := true, pool := [], closer := .closing s.pool false })
  | .closing (k :: rest) taken => s.objects[k]?.map fun o => { s with
      objects := s.objects.set k { o with state := .closed }
      closer := if o.state = .closed then .closing rest taken else .erasing o.id rest taken }
  | .closing [] false => some { s with closer := .taking }
  | .closing [] true => some { s with closer := .returned }
  | .erasing id rest taken =>
    some { s with streams := s.streams.filter (fun p => p.1 ≠ id), closer := .closing rest taken }
  | .taking => some { s with streams := [], closer := .closing (s.streams.map Prod.snd) true }
  | .returned => none

inductive Act
  | call (i : ℕ)
  | close
  | breaker
deriving DecidableEq

def step (isClient : Bool) (s : State) : Act → Option State
  | .call i => Threads.step (advance isClient) s i
  | .close => (close s.shared).map fun shared => { s with shared := shared }
  | .breaker => some { s with shared := { s.shared with unhealthy := !s.shared.unhealthy } }

structure WellFormed (s : Shared) : Prop where
  keyed : (s.streams.map Prod.fst).Nodup
  named : ∀ id k, (id, k) ∈ s.streams → ∃ o, s.objects[k]? = some o ∧ o.id = id
  opened : ∀ k o, s.objects[k]? = some o → o.state = .opened → (o.id, k) ∈ s.streams
  pooled : ∀ k ∈ s.pool, ∃ o, s.objects[k]? = some o ∧ (o.state ≠ .closed → (o.id, k) ∈ s.streams)

def Pc.fresh : Pc → Bool
  | .isClosed | .find _ _ => true
  | _ => false

def system (isClient : Bool) : System State Act where
  initial s := WellFormed s.shared ∧ s.shared.shutdown = false ∧ s.shared.closer = .exchange ∧
    ∀ pc ∈ s.calls, pc.fresh = true
  step := step isClient

def Closer.taken : Closer → Bool
  | .exchange | .taking => false
  | .closing _ taken | .erasing _ _ taken => taken
  | .returned => true

def Closer.rest : Closer → List ℕ
  | .closing rest _ | .erasing _ rest _ => rest
  | _ => []

def timely (s : State) : Act → Bool
  | .call i =>
    match s.calls[i]? with
    | some (.emplace id) => !s.shared.closer.taken && (s.shared.streams.lookup id).isNone
    | _ => true
  | _ => true

def Settled (s : State) : Prop := s.shared.closer = .returned ∧ ∀ pc ∈ s.calls, pc = .returned

def AllClosed (s : Shared) : Prop := s.streams = [] ∧ ∀ o ∈ s.objects, o.state ≠ .opened

structure Inv (s : Shared) : Prop where
  keyed : (s.streams.map Prod.fst).Nodup
  named : ∀ id k, (id, k) ∈ s.streams → ∃ o, s.objects[k]? = some o ∧ o.id = id
  listed : ∀ k ∈ s.pool ++ s.closer.rest, ∃ o, s.objects[k]? = some o ∧
    (s.closer.taken = false → o.state ≠ .closed → (o.id, k) ∈ s.streams)
  opened : ∀ k o, s.objects[k]? = some o → o.state = .opened →
    if s.closer.taken then k ∈ s.closer.rest else (o.id, k) ∈ s.streams
  empty : s.closer.taken = true → s.streams = []
  erasing : ∀ id rest, s.closer = .erasing id rest false →
    ∃ k o, (id, k) ∈ s.streams ∧ s.objects[k]? = some o ∧ o.state = .closed
  begun : s.closer = .exchange → s.shutdown = false

variable {isClient : Bool} {s t : State} {sh sh' : Shared} {pc pc' : Pc} {a : Act} {id k : ℕ}

theorem lookup_isSome (h : (id, k) ∈ sh.streams) : (sh.streams.lookup id).isSome = true := by
  by_contra hn
  rw [Bool.not_eq_true, Option.isSome_eq_false_iff, Option.isNone_iff_eq_none, List.lookup_eq_none_iff] at hn
  simpa using hn _ h

theorem not_mem_of_lookup (h : sh.streams.lookup id = none) (k : ℕ) : (id, k) ∉ sh.streams := by
  intro hk
  have := lookup_isSome hk
  rw [h] at this
  cases this

theorem getElem?_concat_cases {objects : List Object} {new o : Object} (h : (objects ++ [new])[k]? = some o) :
    objects[k]? = some o ∨ k = objects.length ∧ o = new := by
  rcases Nat.lt_trichotomy k objects.length with hk | rfl | hk
  · rw [List.getElem?_append_left hk] at h
    exact .inl h
  · rw [List.getElem?_concat_length] at h
    exact .inr ⟨rfl, (Option.some.inj h).symm⟩
  · rw [List.getElem?_eq_none (by simp only [List.length_append, List.length_singleton]; omega)] at h
    cases h

theorem getElem?_concat_left {objects : List Object} {o : Object} (new : Object) (h : objects[k]? = some o) :
    (objects ++ [new])[k]? = some o := by
  rw [List.getElem?_append_left (List.getElem?_eq_some_iff.mp h).1, h]

namespace Inv

theorem emplace (h : Inv sh) (ht : sh.closer.taken = false) (hid : sh.streams.lookup id = none) :
    Inv (emplace sh id) := by
  have hstreams : (SessionClose.emplace sh id).streams = (id, sh.objects.length) :: sh.streams := by
    simp [SessionClose.emplace, hid]
  have hnew := not_mem_of_lookup hid
  have hobj : (SessionClose.emplace sh id).objects = sh.objects ++ [⟨id, .opened⟩] := rfl
  constructor
  · rw [hstreams, List.map_cons, List.nodup_cons]
    refine ⟨fun hx => ?_, h.keyed⟩
    obtain ⟨⟨i, k⟩, hk, rfl⟩ := List.mem_map.mp hx
    exact hnew k hk
  · intro i k hk
    rw [hobj]
    rw [hstreams, List.mem_cons] at hk
    rcases hk with hk | hk
    · cases hk
      exact ⟨_, List.getElem?_concat_length, rfl⟩
    · obtain ⟨o, ho, hi⟩ := h.named i k hk
      exact ⟨o, getElem?_concat_left _ ho, hi⟩
  · intro k hk
    obtain ⟨o, ho, hin⟩ := h.listed k hk
    rw [hobj, hstreams]
    exact ⟨o, getElem?_concat_left _ ho, fun ht hne => List.mem_cons_of_mem _ (hin ht hne)⟩
  · intro k o ho hopen
    rw [hobj] at ho
    have hif : (SessionClose.emplace sh id).closer.taken = false := ht
    rw [hif, if_neg Bool.false_ne_true, hstreams]
    rcases getElem?_concat_cases ho with ho | ⟨rfl, rfl⟩
    · have := h.opened k o ho hopen
      rw [ht, if_neg Bool.false_ne_true] at this
      exact List.mem_cons_of_mem _ this
    · exact List.mem_cons_self
  · intro ht'
    cases ht.symm.trans ht'
  · intro i rest hc
    obtain ⟨k, o, hk, ho, hcl⟩ := h.erasing i rest hc
    rw [hobj, hstreams]
    exact ⟨k, o, List.mem_cons_of_mem _ hk, getElem?_concat_left _ ho, hcl⟩
  · exact h.begun

theorem advance (h : Inv sh) (ha : advance isClient sh pc = some (sh', pc'))
    (ht : ∀ id, pc = .emplace id → sh.closer.taken = false ∧ sh.streams.lookup id = none) : Inv sh' := by
  cases pc with
  | emplace id =>
    cases ha
    obtain ⟨htaken, hid⟩ := ht id rfl
    exact h.emplace htaken hid
  | returned => cases ha
  | fetchAdd =>
    cases ha
    exact ⟨h.keyed, h.named, h.listed, h.opened, h.empty, h.erasing, h.begun⟩
  | _ =>
    cases ha
    exact h

-- the exchange of the state in the close of the stream `k`
theorem exchange {rest : List ℕ} {taken : Bool} {o : Object} (h : Inv sh) (hc : sh.closer = .closing (k :: rest) taken)
    (ho : sh.objects[k]? = some o) : Inv { sh with
      objects := sh.objects.set k { o with state := .closed }
      closer := if o.state = .closed then .closing rest taken else .erasing o.id rest taken } := by
  have hlt := (List.getElem?_eq_some_iff.mp ho).1
  have hat : (sh.objects.set k { o with state := .closed })[k]? = some { o with state := .closed } :=
    List.getElem?_set_self hlt
  have hoff : ∀ i, i ≠ k → (sh.objects.set k { o with state := .closed })[i]? = sh.objects[i]? :=
    fun i hi => List.getElem?_set_ne hi.symm
  have htaken : (if o.state = .closed then Closer.closing rest taken else .erasing o.id rest taken).taken = taken := by
    split_ifs <;> rfl
  have hrest : (if o.state = .closed then Closer.closing rest taken else .erasing o.id rest taken).rest = rest := by
    split_ifs <;> rfl
  have hlisted := h.listed
  have hopened := h.opened
  have hempty := h.empty
  rw [hc] at hlisted hopened hempty
  constructor
  · exact h.keyed
  · intro i j hj
    obtain ⟨x, hx, hi⟩ := h.named i j hj
    by_cases hjk : j = k
    · subst hjk
      rw [ho, Option.some.injEq] at hx
      exact ⟨_, hat, hx ▸ hi⟩
    · exact ⟨x, (hoff j hjk).trans hx, hi⟩
  · intro j hj
    simp only [hrest, htaken] at hj ⊢
    obtain ⟨x, hx, hin⟩ := hlisted j (by
      simp only [Closer.rest, List.mem_append, List.mem_cons] at hj ⊢
      tauto)
    by_cases hjk : j = k
    · subst hjk
      exact ⟨_, hat, fun _ hne => absurd rfl hne⟩
    · exact ⟨x, (hoff j hjk).trans hx, hin⟩
  · intro j x hx hopen
    simp only [hrest, htaken]
    by_cases hjk : j = k
    · subst hjk
      rw [hat, Option.some.injEq] at hx
      subst hx
      cases hopen
    · have hkept := hopened j x ((hoff j hjk).symm.trans hx) hopen
      cases taken with
      | true => exact (List.mem_cons.mp hkept).resolve_left hjk
      | false => exact hkept
  · simp only [htaken]
    exact hempty
  · intro i rest' hc'
    simp only at hc'
    split_ifs at hc' with hclosed
    cases hc'
    obtain ⟨x, hx, hin⟩ := hlisted k (by simp [Closer.rest])
    rw [ho, Option.some.injEq] at hx
    subst hx
    exact ⟨k, _, hin rfl hclosed, hat, rfl⟩
  · intro hc'
    simp only at hc'
    split_ifs at hc'

-- `on_stream_close` of a stream that is closed
theorem erase {rest : List ℕ} {taken : Bool} (h : Inv sh) (hc : sh.closer = .erasing id rest taken) :
    Inv { sh with streams := sh.streams.filter (fun p => p.1 ≠ id), closer := .closing rest taken } := by
  have hlisted := h.listed
  have hopened := h.opened
  have hempty := h.empty
  have herasing := h.erasing
  rw [hc] at hlisted hopened hempty herasing
  -- what is not closed is kept, as the one entry under the id is that of a closed stream
  have hkept : ∀ k o, taken = false → sh.objects[k]? = some o → o.state ≠ .closed → (o.id, k) ∈ sh.streams →
      (o.id, k) ∈ sh.streams.filter (fun p => p.1 ≠ id) := by
    intro k o ht ho hne hk
    rw [List.mem_filter]
    refine ⟨hk, ?_⟩
    simp only [ne_eq, decide_eq_true_eq]
    rintro rfl
    obtain ⟨k', o', hk', ho', hcl⟩ := herasing o.id rest (by rw [ht])
    have heq : (o.id, k') = (o.id, k) := List.inj_on_of_nodup_map h.keyed hk' hk rfl
    cases heq
    rw [ho, Option.some.injEq] at ho'
    exact hne (ho' ▸ hcl)
  constructor
  · exact (List.filter_sublist.map _).nodup h.keyed
  · intro i k hk
    exact h.named i k (List.mem_filter.mp hk).1
  · intro k hk
    obtain ⟨o, ho, hin⟩ := hlisted k hk
    exact ⟨o, ho, fun ht hne => hkept k o ht ho hne (hin ht hne)⟩
  · intro k o ho hopen
    have hin := hopened k o ho hopen
    cases taken with
    | true => exact hin
    | false => exact hkept k o rfl ho (by rw [hopen]; decide) hin
  · intro ht
    rw [hempty ht]
    rfl
  · intro i rest' hc'
    cases hc'
  · intro hc'
    cases hc'

theorem close (h : Inv sh) (hstep : close sh = some sh') : Inv sh' := by
  rw [SessionClose.close] at hstep
  have hlisted := h.listed
  have hopened := h.opened
  split at hstep
  · next hc =>
    rw [h.begun hc, if_neg Bool.false_ne_true] at hstep
    cases hstep
    rw [hc] at hlisted hopened
    refine ⟨h.keyed, h.named, ?_, hopened, fun ht => absurd ht (by simp [Closer.taken]), by simp, by simp⟩
    intro k hk
    exact hlisted k (by simpa [Closer.rest] using hk)
  · next k rest taken hc =>
    obtain ⟨o, ho, rfl⟩ := Option.map_eq_some_iff.mp hstep
    exact h.exchange hc ho
  · next hc =>
    cases hstep
    rw [hc] at hlisted hopened
    exact ⟨h.keyed, h.named, hlisted, hopened, fun ht => absurd ht (by simp [Closer.taken]), by simp, by simp⟩
  · next hc =>
    cases hstep
    have hempty := h.empty
    rw [hc] at hlisted hopened hempty
    exact ⟨h.keyed, h.named, hlisted, hopened, hempty, by simp, by simp⟩
  · next id rest taken hc =>
    cases hstep
    exact h.erase hc
  · next hc =>
    cases hstep
    rw [hc] at hlisted hopened
    refine ⟨List.nodup_nil, by simp, ?_, ?_, fun _ => rfl, by simp, by simp⟩
    · intro k hk
      rcases List.mem_append.mp hk with hk | hk
      · obtain ⟨o, ho, -⟩ := hlisted k (List.mem_append_left _ hk)
        exact ⟨o, ho, fun ht => absurd ht (by simp [Closer.taken])⟩
      · obtain ⟨⟨i, k⟩, hik, rfl⟩ := List.mem_map.mp hk
        obtain ⟨o, ho, -⟩ := h.named i k hik
        exact ⟨o, ho, fun ht => absurd ht (by simp [Closer.taken])⟩
    · intro k o ho hopen
      exact List.mem_map_of_mem (hopened k o ho hopen)
  · cases hstep

theorem step (h : Inv s.shared) (hok : timely s a = true) (hstep : step isClient s a = some t) : Inv t.shared := by
  cases a with
  | call i =>
    obtain ⟨pre, pc, post, sh', pc', hs, hi, ha, rfl⟩ := Threads.step_cases hstep
    apply h.advance ha
    rintro id rfl
    rw [timely, hs, ← hi, List.getElem?_append_right le_rfl, Nat.sub_self, List.getElem?_cons_zero] at hok
    simpa using hok
  | close =>
    obtain ⟨sh', hclose, rfl⟩ := Option.map_eq_some_iff.mp hstep
    exact h.close hclose
  | breaker =>
    cases hstep
    exact ⟨h.keyed, h.named, h.listed, h.opened, h.empty, h.erasing, h.begun⟩

theorem start (h : (system isClient).initial s) : Inv s.shared := by
  obtain ⟨hwf, hsh, hc, -⟩ := h
  refine ⟨hwf.keyed, hwf.named, ?_, ?_, ?_, ?_, fun _ => hsh⟩
  · intro k hk
    rw [hc] at hk ⊢
    obtain ⟨o, ho, hin⟩ := hwf.pooled k (by simpa [Closer.rest] using hk)
    exact ⟨o, ho, fun _ => hin⟩
  · rw [hc]
    exact hwf.opened
  · rw [hc]
    intro ht
    cases ht
  · rw [hc]
    intro i rest hc'
    cases hc'

end Inv

structure Unlisted (sh : Shared) (k : ℕ) : Prop where
  listed : k ∉ sh.pool ++ sh.closer.rest
  entered : sh.closer.taken = false → k ∉ sh.streams.map Prod.snd

theorem Unlisted.close (h : Unlisted sh k) (hstep : close sh = some sh') :
    Unlisted sh' k ∧ sh'.objects[k]? = sh.objects[k]? := by
  rw [SessionClose.close] at hstep
  obtain ⟨hlisted, hentered⟩ := h
  split at hstep
  · next hc =>
    rw [hc] at hlisted hentered
    split_ifs at hstep
    · cases hstep
      exact ⟨⟨hlisted, fun ht => absurd ht (by simp [Closer.taken])⟩, rfl⟩
    · cases hstep
      exact ⟨⟨by simpa [Closer.rest] using hlisted, hentered⟩, rfl⟩
  · next i rest taken hc =>
    obtain ⟨x, hx, rfl⟩ := Option.map_eq_some_iff.mp hstep
    rw [hc] at hlisted hentered
    simp only [Closer.rest, List.mem_append, List.mem_cons, not_or] at hlisted
    obtain ⟨hpool, hki, hrest⟩ := hlisted
    refine ⟨⟨?_, ?_⟩, List.getElem?_set_ne (Ne.symm hki)⟩
    · simp only [List.mem_append, not_or]
      refine ⟨hpool, ?_⟩
      split_ifs <;> exact hrest
    · simp only
      split_ifs <;> exact hentered
  · next hc =>
    cases hstep
    rw [hc] at hlisted hentered
    exact ⟨⟨hlisted, hentered⟩, rfl⟩
  · next hc =>
    cases hstep
    rw [hc] at hlisted hentered
    exact ⟨⟨hlisted, hentered⟩, rfl⟩
  · next i rest taken hc =>
    cases hstep
    rw [hc] at hlisted hentered
    exact ⟨⟨hlisted, fun ht hk => hentered ht ((List.filter_sublist.map _).subset hk)⟩, rfl⟩
  · next hc =>
    cases hstep
    rw [hc] at hlisted hentered
    refine ⟨⟨?_, fun ht => absurd ht (by simp [Closer.taken])⟩, rfl⟩
    simp only [Closer.rest, List.mem_append, not_or, List.not_mem_nil, not_false_eq_true, and_true] at hlisted ⊢
    exact ⟨hlisted, hentered rfl⟩
  · cases hstep

theorem Unlisted.emplace (h : Unlisted sh k)
    (hk : k = sh.objects.length → sh.closer.taken = false → sh.streams.lookup id ≠ none) : Unlisted (emplace sh id) k := by
  refine ⟨h.listed, fun ht hin => ?_⟩
  rw [SessionClose.emplace] at hin
  split_ifs at hin with hid
  · exact h.entered ht hin
  · rw [List.map_cons, List.mem_cons] at hin
    rcases hin with rfl | hin
    · exact hk rfl ht (Option.not_isSome_iff_eq_none.mp hid)
    · exact h.entered ht hin

theorem length_close (hstep : close sh = some sh') : sh'.objects.length = sh.objects.length := by
  rw [close] at hstep
  split at hstep
  · split_ifs at hstep <;> cases hstep <;> rfl
  · obtain ⟨x, -, rfl⟩ := Option.map_eq_some_iff.mp hstep
    exact List.length_set
  all_goals cases hstep
  all_goals rfl

def Ahead (sh : Shared) : Prop := ∀ k, sh.objects.length ≤ k → Unlisted sh k

def Lost (sh : Shared) (k : ℕ) : Prop := Unlisted sh k ∧ ∃ o, sh.objects[k]? = some o ∧ o.state = .opened

theorem length_emplace (sh : Shared) (id : ℕ) : (emplace sh id).objects.length = sh.objects.length + 1 :=
  List.length_append

theorem Ahead.step (h : Ahead s.shared) (hstep : step isClient s a = some t) : Ahead t.shared := by
  cases a with
  | call i =>
    obtain ⟨pre, pc, post, sh', pc', -, -, ha, rfl⟩ := Threads.step_cases hstep
    cases pc with
    | emplace id =>
      cases ha
      intro k hk
      rw [length_emplace] at hk
      apply (h k (by omega)).emplace
      omega
    | returned => cases ha
    | fetchAdd =>
      cases ha
      intro k hk
      exact ⟨(h k hk).listed, (h k hk).entered⟩
    | _ =>
      cases ha
      exact h
  | close =>
    obtain ⟨sh', hclose, rfl⟩ := Option.map_eq_some_iff.mp hstep
    intro k hk
    rw [length_close hclose] at hk
    exact ((h k hk).close hclose).1
  | breaker =>
    cases hstep
    intro k hk
    exact ⟨(h k hk).listed, (h k hk).entered⟩

theorem Lost.step (h : Lost s.shared k) (hstep : step isClient s a = some t) : Lost t.shared k := by
  obtain ⟨hun, o, ho, hopen⟩ := h
  have hlt := (List.getElem?_eq_some_iff.mp ho).1
  cases a with
  | call i =>
    obtain ⟨pre, pc, post, sh', pc', -, -, ha, rfl⟩ := Threads.step_cases hstep
    cases pc with
    | emplace id =>
      cases ha
      exact ⟨hun.emplace (by omega), o, getElem?_concat_left _ ho, hopen⟩
    | returned => cases ha
    | fetchAdd =>
      cases ha
      exact ⟨⟨hun.listed, hun.entered⟩, o, ho, hopen⟩
    | _ =>
      cases ha
      exact ⟨hun, o, ho, hopen⟩
  | close =>
    obtain ⟨sh', hclose, rfl⟩ := Option.map_eq_some_iff.mp hstep
    obtain ⟨hun', hsame⟩ := hun.close hclose
    exact ⟨hun', o, hsame.trans ho, hopen⟩
  | breaker =>
    cases hstep
    exact ⟨⟨hun.listed, hun.entered⟩, o, ho, hopen⟩

theorem ahead_of_run (h : (system isClient).Run s) : Ahead s.shared := by
  refine h.invariant (I := fun s => Ahead s.shared) ?_ fun _ _ _ hb _ hstep => hb.step hstep
  rintro s ⟨hwf, -, hc, -⟩ k hk
  have hnone : s.shared.objects[k]? = none := List.getElem?_eq_none hk
  constructor
  · intro hp
    rw [hc] at hp
    obtain ⟨o, ho, -⟩ := hwf.pooled k (by simpa [Closer.rest] using hp)
    cases hnone.symm.trans ho
  · intro _ hk
    obtain ⟨⟨i, k⟩, hik, rfl⟩ := List.mem_map.mp hk
    obtain ⟨o, ho, -⟩ := hwf.named i k hik
    cases hnone.symm.trans ho

theorem Lost.run {as : List Act} (h : Lost s.shared k) (hrun : (system isClient).runFrom s as = some t) :
    Lost t.shared k := by
  induction as generalizing s with
  | nil =>
    cases hrun
    exact h
  | cons a as ih =>
    obtain ⟨u, hu, hrun⟩ := Option.bind_eq_some_iff.mp hrun
    exact ih (h.step hu) hrun

theorem Lost.of_step (h : Ahead s.shared) (hlate : timely s a = false) (hstep : SessionClose.step isClient s a = some t) :
    Lost t.shared s.shared.objects.length := by
  cases a with
  | call i =>
    obtain ⟨pre, pc, post, sh', pc', hs, hi, ha, rfl⟩ := Threads.step_cases hstep
    rw [timely, hs, ← hi, List.getElem?_append_right le_rfl, Nat.sub_self, List.getElem?_cons_zero] at hlate
    cases pc with
    | emplace id =>
      cases ha
      refine ⟨(h _ le_rfl).emplace fun _ ht hid => ?_, _, List.getElem?_concat_length, rfl⟩
      simp [ht, hid] at hlate
    | _ => cases hlate
  | _ => cases hlate

theorem close_closes_streams (isClient : Bool) :
    (∀ s, (system isClient).Reachable (fun s a => timely s a = true) s → Settled s → AllClosed s.shared) ∧
    ∀ s a t as u, (system isClient).Run s → timely s a = false → step isClient s a = some t →
      (system isClient).runFrom t as = some u → ¬ AllClosed u.shared := by
  constructor
  · intro s hs hsettled
    have hinv : Inv s.shared := by
      refine hs.invariant (I := fun s => Inv s.shared) (fun s h => .start h) ?_
      intro s a t h hok hstep
      exact h.step hok hstep
    have hempty := hinv.empty
    have hopened := hinv.opened
    rw [hsettled.1] at hempty hopened
    refine ⟨hempty rfl, fun o ho hopen => ?_⟩
    obtain ⟨k, hk⟩ := List.getElem?_of_mem ho
    have hrest := hopened k o hk hopen
    simp [Closer.taken, Closer.rest] at hrest
  · rintro s a t as u hs hlate hstep hrun ⟨-, hnone⟩
    have hlost := Lost.of_step (ahead_of_run hs) hlate hstep
    obtain ⟨-, o, ho, hopen⟩ := hlost.run hrun
    exact hnone o (List.mem_of_getElem? ho) hopen

def fresh : State :=
  ⟨⟨false, false, 2, [], [], [], .exchange⟩, [.isClosed, .find 2 0]⟩

theorem initial_fresh (isClient : Bool) : (system isClient).initial fresh :=
  ⟨⟨List.nodup_nil, by simp [fresh], by simp [fresh], by simp [fresh]⟩, rfl, rfl, by decide⟩

def orderly : List Act :=
  [.call 0, .call 1, .call 0, .call 1, .call 0, .close, .call 0, .call 0, .close, .close, .close, .close, .close, .close,
    .close]

theorem close_closes_streams_orderly : ∃ s, (system false).Reachable (fun s a => timely s a = true) s ∧
    s.shared.objects.length = 2 ∧ AllClosed s.shared := by
  have hrun : (((system false).restrict fun s a => timely s a = true).runFrom fresh orderly).map
      (fun s => (s.shared.closer, s.calls, s.shared.objects.length)) = some (.returned, [.returned, .returned], 2) := by
    decide
  obtain ⟨s, hs, he⟩ := Option.map_eq_some_iff.mp hrun
  obtain ⟨hcloser, hcalls, hlen⟩ : s.shared.closer = _ ∧ s.calls = _ ∧ s.shared.objects.length = _ := by simpa using he
  have hr : (system false).Reachable (fun s a => timely s a = true) s :=
    .of_restrict (.runFrom (fun _ _ _ => trivial) (.initial (initial_fresh false)) hs)
  exact ⟨s, hr, hlen, (close_closes_streams false).1 s hr ⟨hcloser, by simp [hcalls]⟩⟩

def overtaken : List Act :=
  [.call 0, .call 0, .call 0, .call 0, .call 1, .call 1, .close, .close, .close, .close, .close, .close, .call 0]

theorem stream_open_after_close : ∃ s, (system false).Run s ∧ Settled s ∧ s.shared.streams = [(3, 1)] ∧
    s.shared.objects[1]? = some ⟨3, .opened⟩ := by
  have hrun : ((system false).runFrom fresh overtaken).map
      (fun s => (s.shared.closer, s.calls, s.shared.streams, s.shared.objects[1]?)) =
      some (.returned, [.returned, .returned], [(3, 1)], some ⟨3, .opened⟩) := by
    decide
  obtain ⟨s, hs, he⟩ := Option.map_eq_some_iff.mp hrun
  obtain ⟨hcloser, hcalls, hstreams, hobj⟩ : s.shared.closer = _ ∧ s.calls = _ ∧ s.shared.streams = _ ∧
    s.shared.objects[1]? = _ := by simpa using he
  exact ⟨s, .runFrom (fun _ _ _ => trivial) (.initial (initial_fresh false)) hs, ⟨hcloser, by simp [hcalls]⟩, hstreams,
    hobj⟩

end Shmipc.SessionClose
