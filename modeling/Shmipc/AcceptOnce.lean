import Shmipc.Connection

namespace Shmipc.Connection

open Transition StreamRead

def Endpoint.erasedFor (e : Endpoint) (m : Msg) : Bool :=
  (List.range e.objects.length).any fun j =>
    e.objects[j]?.any (fun o => o.source = some m.origin) && e.streams.lookup m.seqId ≠ some j

/-- The server looks up no data of a stream whose entry has left its map. -/
def drained (s : State) : Party × Move → Bool
  | (.server, .act .read) =>
    match (s .server).shared.reader with
    | .got m _ => m.kind ≠ .data || !(s .server).shared.erasedFor m
    | _ => true
  | _ => true

def Endpoint.acceptedFor (e : Endpoint) (k : ℕ) : List ℕ :=
  e.accepted.filter fun j => e.objects[j]?.any fun o => o.source = some k

variable {p : Party} {e e' : Endpoint} {v v' : Half} {j k : ℕ} {o o' : Object} {m : Msg} {late : Bool}
  {s t : State} {r : Reader} {calls : List Call}

theorem erasedFor_eq_true : e.erasedFor m = true ↔
    ∃ (j : ℕ) (o : Object), e.objects[j]? = some o ∧ o.source = some m.origin ∧ e.streams.lookup m.seqId ≠ some j := by
  simp only [Endpoint.erasedFor, List.any_eq_true, List.mem_range, Bool.and_eq_true, Option.any_eq_true, decide_eq_true_eq]
  constructor
  · rintro ⟨j, -, ⟨o, ho, hs⟩, hne⟩
    exact ⟨j, o, ho, hs, hne⟩
  · rintro ⟨j, o, ho, hs, hne⟩
    exact ⟨j, (List.getElem?_eq_some_iff.mp ho).1, ⟨o, ho, hs⟩, hne⟩

def Endpoint.Mapped (e : Endpoint) (m : Msg) : Prop :=
  ∀ (j : ℕ) (o : Object), e.objects[j]? = some o → o.source = some m.origin → e.streams.lookup m.seqId = some j

theorem mapped_of_drained (hd : drained s (.server, .act .read) = true) (hr : (s .server).shared.reader = .got m late)
    (hdata : m.kind = .data) : (s .server).shared.Mapped m := by
  intro j o ho hs
  by_contra hne
  have herased := erasedFor_eq_true.mpr ⟨j, o, ho, hs, hne⟩
  simp only [drained, hr, hdata, herased] at hd
  exact absurd hd (by decide)

structure Once (v : Half) : Prop where
  quiet : ∀ pc ∈ v.calls, pc.opening = none
  unique : ∀ (i j k id id' : ℕ), v.shared.named[i]? = some (id, some k) → v.shared.named[j]? = some (id', some k) → i = j
  creating : ∀ m late, v.shared.reader = .creating m late →
    m.kind = .data ∧ late = false ∧ ∀ (j id : ℕ), v.shared.named[j]? ≠ some (id, some m.origin)
  late : ∀ m, v.shared.reader = .got m true →
    ∃ (j : ℕ) (o : Object), v.shared.objects[j]? = some o ∧ o.source = some m.origin ∧ o.state = .closed
  filling : ∀ k m, v.shared.reader = .filling k m true → m.kind = .data →
    ∃ o, v.shared.objects[k]? = some o ∧ o.state = .closed
  handled : ∀ x ∈ v.shared.handled, x.late = true → x.into = none
  nodup : v.shared.accepted.Nodup
  accepted : ∀ j ∈ v.shared.accepted, j < v.shared.objects.length
  complete : ∀ (j id k : ℕ), v.shared.named[j]? = some (id, some k) → j ∈ v.shared.accepted

theorem mem_moved {pre post : List Call} {pc pc' x : Call} (hin : x ∈ pre ++ pc' :: post) (hne : x ≠ pc') :
    x ∈ pre ++ pc :: post := by
  rw [List.mem_append, List.mem_cons] at hin ⊢
  tauto

namespace Once

theorem same (ho : Once ⟨e, calls⟩) {calls' : List Call} (hk : e.Evolves e')
    (hlen : e'.objects.length = e.objects.length) (hr : e'.reader = e.reader)
    (hh : e'.handled = e.handled) (ha : e'.accepted = e.accepted) (hcalls : ∀ pc ∈ calls', pc.opening = none) :
    Once ⟨e', calls'⟩ := by
  have hnamed : e'.named = e.named := by
    refine (hk.names.eq_of_length ?_).symm
    rw [length_named, length_named, hlen]
  refine ⟨hcalls, ?_, ?_, ?_, ?_, ?_, ?_, ?_, ?_⟩
  · rw [hnamed]
    exact ho.unique
  · rw [hr, hnamed]
    exact ho.creating
  · intro m hm
    obtain ⟨j, o, hj, hsource, hclosed⟩ := ho.late m (hr ▸ hm)
    obtain ⟨o', hj', hages⟩ := hk j o hj
    exact ⟨j, o', hj', hages.source.trans hsource, hages.closed hclosed⟩
  · intro k m hm hd
    obtain ⟨o, hj, hclosed⟩ := ho.filling k m (hr ▸ hm) hd
    obtain ⟨o', hj', hages⟩ := hk k o hj
    exact ⟨o', hj', hages.closed hclosed⟩
  · rw [hh]
    exact ho.handled
  · rw [ha]
    exact ho.nodup
  · rw [ha, hlen]
    exact ho.accepted
  · rw [hnamed, ha]
    exact ho.complete

theorem erase (ho : Once ⟨e, calls⟩) (id : ℕ) : Once ⟨e.erase id, calls⟩ := ho.same (.of_eq rfl) rfl rfl rfl rfl ho.quiet

theorem wait (ho : Once ⟨e, calls⟩) (hnone : ∀ m late, r ≠ .got m late ∧ r ≠ .creating m late)
    (hr : ∀ k m, r = .filling k m true → m.kind = .data → ∃ o, e.objects[k]? = some o ∧ o.state = .closed) :
    Once ⟨{ e with reader := r }, calls⟩ where
  __ := ho
  creating m late hc := absurd hc (hnone m late).2
  late m hc := absurd hc (hnone m true).1
  filling := hr

theorem idle (ho : Once ⟨e, calls⟩) : Once ⟨{ e with reader := .idle }, calls⟩ :=
  ho.wait (fun _ _ => ⟨by rintro ⟨⟩, by rintro ⟨⟩⟩) (by rintro _ _ ⟨⟩)

theorem fill (ho : Once ⟨e, calls⟩) (h : late = true → m.kind = .data → ∃ o, e.objects[k]? = some o ∧ o.state = .closed) :
    Once ⟨{ e with reader := .filling k m late }, calls⟩ := by
  refine ho.wait (fun _ _ => ⟨by rintro ⟨⟩, by rintro ⟨⟩⟩) ?_
  rintro _ _ ⟨⟩
  exact h rfl

theorem finish (ho : Once ⟨e, calls⟩) {x : Handled} (hx : x.late = true → x.into = none) :
    Once ⟨{ e with reader := .idle, handled := e.handled ++ [x] }, calls⟩ where
  __ := ho.idle
  handled y hy := by
    rw [List.mem_append, List.mem_singleton] at hy
    rcases hy with hy | rfl
    · exact ho.handled y hy
    · exact hx

theorem getStream (ho : Once ⟨e, calls⟩) (hr : e.reader = .got m late) (hmapped : m.kind = .data → e.Mapped m) :
    Once ⟨e.getStream .server m late, calls⟩ := by
  have hentry : late = true → m.kind = .data → ∃ (j : ℕ) (o : Object), e.objects[j]? = some o ∧ o.state = .closed ∧
      e.streams.lookup m.seqId = some j := by
    rintro rfl hd
    obtain ⟨j, o, hj, hsource, hclosed⟩ := ho.late m hr
    exact ⟨j, o, hj, hclosed, hmapped hd j o hj hsource⟩
  rw [Endpoint.getStream]
  split
  · next k hk =>
    refine ho.fill fun hlate hd => ?_
    obtain ⟨j, o, hj, hclosed, hlook⟩ := hentry hlate hd
    cases hk.symm.trans hlook
    exact ⟨o, hj, hclosed⟩
  · next hnone =>
    split_ifs with hd hserver
    · refine { ho with creating := ?_, late := by rintro _ ⟨⟩, filling := by rintro _ _ ⟨⟩ }
      rintro _ _ ⟨⟩
      refine ⟨hd, Bool.eq_false_iff.mpr fun hlate => ?_, fun j id hj => ?_⟩
      · obtain ⟨j, o, -, -, hlook⟩ := hentry hlate hd
        cases hnone.symm.trans hlook
      · rw [Endpoint.named, List.getElem?_map, Option.map_eq_some_iff] at hj
        obtain ⟨o, ho, hname⟩ := hj
        cases hnone.symm.trans (hmapped hd j o ho (Prod.mk.inj hname).2)
    · exact absurd rfl hserver
    · exact ho.idle

theorem handleStreamClose (ho : Once ⟨e, calls⟩) (hkind : m.kind = .streamClose) :
    Once ⟨e.handleStreamClose m late, calls⟩ := by
  rw [Endpoint.handleStreamClose]
  split
  · refine (ho.erase m.seqId).fill fun _ hdata => ?_
    rw [hkind] at hdata
    cases hdata
  · exact ho.idle

theorem create (ho : Once ⟨e, calls⟩) (hr : e.reader = .creating m late) : Once ⟨e.create m late, calls⟩ := by
  obtain ⟨-, hlate, hnew⟩ := ho.creating m late hr
  have hnamed : (e.create m late).named = e.named ++ [(m.seqId, some m.origin)] := named_emplace e _ _
  have hold {j id k : ℕ} (hj : (e.create m late).named[j]? = some (id, some k)) :
      e.named[j]? = some (id, some k) ∨ j = e.objects.length ∧ k = m.origin := by
    rw [hnamed, List.getElem?_append] at hj
    split_ifs at hj with hlt
    · exact .inl hj
    · rw [List.getElem?_singleton] at hj
      split_ifs at hj with hzero
      rw [length_named] at hlt hzero
      cases hj
      exact .inr ⟨by omega, rfl⟩
  refine ⟨ho.quiet, ?_, by rintro _ _ ⟨⟩, by rintro _ ⟨⟩, ?_, ho.handled, ?_, ?_, ?_⟩
  · intro i j k id id' hi hj
    rcases hold hi with hi | ⟨rfl, rfl⟩ <;> rcases hold hj with hj | ⟨rfl, hk⟩
    · exact ho.unique i j k id id' hi hj
    · exact absurd (hk ▸ hi) (hnew i id)
    · exact absurd hj (hnew j id')
    · rfl
  · rintro _ _ ⟨⟩
    cases hlate
  · change (e.accepted ++ [e.objects.length]).Nodup
    rw [List.nodup_append]
    refine ⟨ho.nodup, List.nodup_singleton _, fun i hi j hj => ?_⟩
    rw [List.mem_singleton] at hj
    exact (hj ▸ ho.accepted i hi).ne
  · intro j hj
    change j ∈ e.accepted ++ [e.objects.length] at hj
    change j < (e.objects ++ _).length
    rw [List.length_append, List.length_singleton]
    rw [List.mem_append, List.mem_singleton] at hj
    rcases hj with hj | rfl
    · exact Nat.lt_succ_of_lt (ho.accepted j hj)
    · exact Nat.lt_succ_self _
  · intro j id k hj
    change j ∈ e.accepted ++ [e.objects.length]
    rcases hold hj with hj | ⟨rfl, -⟩
    · exact List.mem_append_left _ (ho.complete j id k hj)
    · exact List.mem_append_right _ (List.mem_singleton_self _)

theorem handleStreamMessage (ho : Once ⟨e, calls⟩) (hr : e.reader = .filling k m late)
    (hobj : e.objects[k]? = some o) : Once ⟨e.handleStreamMessage k o m late, calls⟩ := by
  rw [Endpoint.handleStreamMessage]
  by_cases hd : m.kind = .data
  · rw [if_pos hd]
    refine ho.finish fun hlate => ?_
    obtain ⟨o', ho', hclosed⟩ := ho.filling k m (by rw [hr]; exact congrArg _ hlate) hd
    cases hobj.symm.trans ho'
    exact if_pos hclosed
  · rw [if_neg hd]
    have hkeep (o' : Object) (ha : Ages o o') : Once ⟨{ e.setObject k o' with reader := .idle }, calls⟩ :=
      (ho.same (keeps_setObject hobj ha).ages List.length_set rfl rfl rfl ho.quiet).idle
    split_ifs with hopen
    · exact hkeep _ ⟨rfl, rfl, by rintro ⟨⟩, fun hclosed => by rw [hopen] at hclosed; cases hclosed⟩
    · exact hkeep o (.refl o)

theorem push (ho : Once v) {pc : Call} (hpc : pc.opening = none) : Once ⟨v.shared, v.calls ++ [pc]⟩ where
  __ := ho
  quiet x hx := by
    rw [List.mem_append, List.mem_singleton] at hx
    rcases hx with hx | rfl
    · exact ho.quiet x hx
    · exact hpc

theorem move {pre post : List Call} {pc pc' : Call} (ho : Once ⟨e, pre ++ pc :: post⟩) (hpc : pc'.opening = none) :
    Once ⟨e, pre ++ pc' :: post⟩ where
  __ := ho
  quiet x hx := by
    by_cases hx' : x = pc'
    · rw [hx', hpc]
    · exact ho.quiet x (mem_moved hx hx')

theorem setObject (ho : Once ⟨e, calls⟩) (hobj : e.objects[k]? = some o) (ha : Ages o o') : Once ⟨e.setObject k o', calls⟩ :=
  ho.same (keeps_setObject hobj ha).ages List.length_set rfl rfl rfl ho.quiet

theorem send (ho : Once ⟨e, calls⟩) (m : Msg) (way : Option Channel) : Once ⟨e.send m way, calls⟩ := by
  refine ho.same (keeps_send e m way).ages ?_ ?_ ?_ ?_ ho.quiet
  all_goals
    cases way with
    | none => rfl
    | some c => cases c <;> rfl

theorem advance {pre post : List Call} {pc pc' : Call} {out : Outcome} (ho : Once ⟨e, pre ++ pc :: post⟩)
    (ha : e.advance out pc = some (e', pc')) : Once ⟨e', pre ++ pc' :: post⟩ := by
  have hquiet := ho.quiet pc (List.mem_append_right _ List.mem_cons_self)
  cases pc with
  | count id => cases hquiet
  | emplace id => cases hquiet
  | put k =>
    obtain ⟨o, hobj, ha⟩ := Option.map_eq_some_iff.mp ha
    cases ha
    let o' : Object := { o with inFallbackState := o.inFallbackState || !out.isFromShareMemory }
    have ho' : Once ⟨e.setObject k o', pre ++ .put k :: post⟩ := ho.setObject hobj ⟨rfl, rfl, fun h => h, fun h => h⟩
    exact move (ho'.send _ _) rfl
  | erase k old =>
    obtain ⟨o, hobj, ha⟩ := Option.map_eq_some_iff.mp ha
    cases ha
    refine (ho.erase o.id).move ?_
    split_ifs <;> rfl
  | notify k =>
    obtain ⟨o, hobj, ha⟩ := Option.map_eq_some_iff.mp ha
    cases ha
    have ho' : Once ⟨e.notify out k o, pre ++ .notify k :: post⟩ := by
      rw [Endpoint.notify]
      split_ifs
      all_goals exact ho.send _ _
    exact move ho' rfl
  | returned => cases ha

theorem read (ho : Once ⟨e, calls⟩) (hstep : e.read .server = some e')
    (hd : ∀ m late, e.reader = .got m late → m.kind = .data → e.Mapped m) : Once ⟨e', calls⟩ := by
  rw [Endpoint.read] at hstep
  split at hstep
  · cases hstep
  · next m late hr =>
    cases hstep
    by_cases hkind : m.kind = .streamClose
    · rw [if_pos hkind]
      exact ho.handleStreamClose hkind
    · rw [if_neg hkind]
      exact ho.getStream hr (hd m late hr)
  · next m late hr =>
    cases hstep
    exact ho.create hr
  · next hr =>
    obtain ⟨o, hobj, rfl⟩ := Option.map_eq_some_iff.mp hstep
    exact ho.handleStreamMessage hr hobj

theorem server {a : Act} (ho : Once v) (hstep : act .server v a = some v') (hopen : a ≠ .openStream)
    (hd : a = .read → ∀ m late, v.shared.reader = .got m late → m.kind = .data → v.shared.Mapped m) : Once v' := by
  cases a with
  | openStream => exact absurd rfl hopen
  | flush k =>
    obtain ⟨o, hobj, hstep⟩ := Option.bind_eq_some_iff.mp hstep
    split_ifs at hstep
    cases hstep
    exact ho.push rfl
  | close k =>
    obtain ⟨o, hobj, rfl⟩ := Option.map_eq_some_iff.mp hstep
    have ho' : Once ⟨v.shared.setObject k { o with state := .closed }, v.calls⟩ :=
      ho.setObject hobj ⟨rfl, rfl, by rintro ⟨⟩, fun _ => rfl⟩
    refine ho'.push ?_
    split_ifs <;> rfl
  | reset k =>
    obtain ⟨o, hobj, hstep⟩ := Option.bind_eq_some_iff.mp hstep
    split_ifs at hstep
    cases hstep
    exact ho.setObject hobj ⟨rfl, rfl, fun h => h, fun h => h⟩
  | call i out =>
    obtain ⟨pre, pc, post, e', pc', hcalls, -, ha, rfl⟩ := Threads.step_cases hstep
    have ho' : Once ⟨v.shared, pre ++ pc :: post⟩ := hcalls ▸ ho
    exact ho'.advance ha
  | read =>
    obtain ⟨e', hr, rfl⟩ := Option.map_eq_some_iff.mp hstep
    exact ho.read hr (hd rfl)

theorem pop (ho : Once v) (m : Msg) : Once (take v m) := by
  refine { ho with creating := by rintro _ _ ⟨⟩, late := ?_, filling := by rintro _ _ ⟨⟩ }
  intro x hx
  injection hx with hx hlate
  subst hx
  rw [Endpoint.closedFor, List.any_eq_true] at hlate
  obtain ⟨o, hin, ho⟩ := hlate
  obtain ⟨j, hj⟩ := List.mem_iff_getElem?.mp hin
  exact ⟨j, o, hj, of_decide_eq_true ho⟩

theorem step {x : Party × Move} (ho : Once (s .server)) (hd : drained s x = true) (hstep : step false s x = some t) :
    Once (t .server) := by
  obtain ⟨p, a, h, rfl, hopens, hact, rfl⟩ | ⟨p, ch, m, ms, rfl, -, -, rfl⟩ := step_cases hstep
  · cases p with
    | client => rwa [Function.update_of_ne (by decide)]
    | server =>
      rw [Function.update_self]
      refine ho.server hact (fun ha => Bool.false_ne_true (hopens rfl ha)) ?_
      rintro rfl m late hr
      exact mapped_of_drained hd hr
  · cases p with
    | client =>
      rw [Function.update_of_ne (by decide)]
      change Once (Function.update s .server _ .server)
      rw [Function.update_self]
      refine ho.same (.of_eq ?_) ?_ ?_ ?_ ?_ ho.quiet
      all_goals cases ch <;> rfl
    | server =>
      rw [Function.update_self]
      exact ho.pop m

end Once

theorem once_of_run (hrun : (system false).Reachable (fun s x => drained s x = true) s) : Once (s .server) := by
  apply hrun.invariant (I := fun s => Once (s .server))
  · rintro s rfl
    exact ⟨nofun, nofun, nofun, nofun, nofun, nofun, List.nodup_nil, nofun, nofun⟩
  · exact fun s x t h hd hstep => h.step hd hstep

theorem mem_acceptedFor : j ∈ e.acceptedFor k ↔ j ∈ e.accepted ∧ ∃ o, e.objects[j]? = some o ∧ o.source = some k := by
  simp only [Endpoint.acceptedFor, List.mem_filter, Option.any_eq_true, decide_eq_true_eq]

theorem accepted_at_most_once (hrun : (system false).Reachable (fun s x => drained s x = true) s) :
    (∀ k, ((s .server).shared.acceptedFor k).length ≤ 1) ∧
      ∀ x ∈ (s .server).shared.handled, x.late = true → x.into = none := by
  have ho := once_of_run hrun
  refine ⟨fun k => ?_, ho.handled⟩
  have hnodup : ((s .server).shared.acceptedFor k).Nodup := ho.nodup.filter _
  have hone : ∀ i ∈ (s .server).shared.acceptedFor k, ∀ j ∈ (s .server).shared.acceptedFor k, i = j := by
    intro i hi j hj
    obtain ⟨-, o, hoi, hsi⟩ := mem_acceptedFor.mp hi
    obtain ⟨-, o', hoj, hsj⟩ := mem_acceptedFor.mp hj
    have hni := named_of_getElem? hoi
    have hnj := named_of_getElem? hoj
    rw [hsi] at hni
    rw [hsj] at hnj
    exact ho.unique i j k _ _ hni hnj
  rw [← List.toFinset_card_of_nodup hnodup, Finset.card_le_one]
  simpa only [List.mem_toFinset] using hone

theorem step_read {b : Bool} (hread : (s .server).shared.read .server = some e) :
    (system b).step s (.server, .act .read) = some (Function.update s .server { s .server with shared := e }) := by
  rw [show (system b).step = Connection.step b from rfl, Connection.step, if_neg (by rintro ⟨-, ⟨⟩, -⟩), act, hread]
  rfl

theorem accepted_again (hrun : (system false).Reachable (fun s x => drained s x = true) s)
    (hr : (s .server).shared.reader = .got m late) (hd : drained s (.server, .act .read) = false)
    (hnone : (s .server).shared.streams.lookup m.seqId = none) :
    ∃ t, (system false).runFrom s [(.server, .act .read), (.server, .act .read)] = some t ∧
      1 < ((t .server).shared.acceptedFor m.origin).length := by
  simp only [drained, hr, Bool.or_eq_false_iff, Bool.not_eq_false', decide_eq_false_iff_not, not_not] at hd
  obtain ⟨hdata, herased⟩ := hd
  obtain ⟨j, o, hj, hsource, -⟩ := erasedFor_eq_true.mp herased
  have hname := named_of_getElem? hj
  rw [hsource] at hname
  have haccepted : j ∈ (s .server).shared.acceptedFor m.origin :=
    mem_acceptedFor.mpr ⟨(once_of_run hrun).complete j _ _ hname, o, hj, hsource⟩
  have hfirst : (s .server).shared.read .server = some { (s .server).shared with reader := .creating m late } := by
    rw [Endpoint.read, hr]
    simp only [hdata, Endpoint.getStream, hnone]
    rfl
  have hstep := step_read (b := false) hfirst
  generalize hs₁ : Function.update s .server _ = s₁ at hstep
  have hsecond : (s₁ .server).shared.read .server =
      some (Endpoint.create { (s .server).shared with reader := .creating m late } m late) := by
    rw [← hs₁, Function.update_self]
    rfl
  refine ⟨_, (congrArg (Option.bind · _) hstep).trans (congrArg (Option.bind · _) (step_read hsecond)), ?_⟩
  have hlt : j < (s .server).shared.objects.length := (List.getElem?_eq_some_iff.mp hj).1
  have hold : j ∈ Endpoint.acceptedFor (Endpoint.create { (s .server).shared with reader := .creating m late } m late) m.origin :=
    mem_acceptedFor.mpr ⟨List.mem_append_left _ (mem_acceptedFor.mp haccepted).1, o,
      getElem?_of_prefix (List.prefix_append _ _) hj, hsource⟩
  have hnew : (s .server).shared.objects.length ∈
      Endpoint.acceptedFor (Endpoint.create { (s .server).shared with reader := .creating m late } m late) m.origin :=
    mem_acceptedFor.mpr ⟨List.mem_append_right _ (List.mem_singleton_self _), _, List.getElem?_concat_length, rfl⟩
  rw [Function.update_self]
  refine (Finset.one_lt_card.mpr ⟨j, ?_, _, ?_, hlt.ne⟩).trans_le (List.toFinset_card_le _)
  · exact List.mem_toFinset.mpr hold
  · exact List.mem_toFinset.mpr hnew

def receiving (reads : ℕ) : List (Party × Move) :=
  (.server, .pop .ring) :: List.replicate reads (.server, .act .read)

def closing (p : Party) (k i : ℕ) (calls : ℕ) : List (Party × Move) :=
  (p, .act (.close k)) :: List.replicate calls (p, .act (.call i smooth))

def serverFirst : List (Party × Move) :=
  opening .client 0 ++ flushing .client 0 1 ++ receiving 3 ++ flushing .client 0 2 ++ closing .server 0 0 0 ++ receiving 2 ++
    List.replicate 2 (.server, .act (.call 0 smooth)) ++ closing .client 0 3 2 ++ receiving 1

theorem accepted_once_server_first :
    ∃ s, ((system false).restrict fun s x => drained s x = true).runFrom start serverFirst = some s ∧
      (s .server).shared.handled = [⟨⟨2, .data, 0⟩, false, some 0⟩, ⟨⟨2, .data, 0⟩, true, none⟩] ∧ (s .server).shared.streams = [] ∧
      (∀ k, ((s .server).shared.acceptedFor k).length ≤ 1) ∧
      ∀ x ∈ (s .server).shared.handled, x.late = true → x.into = none := by
  have hfacts : (((system false).restrict fun s x => drained s x = true).runFrom start serverFirst).map (fun s =>
      ((s .server).shared.handled, (s .server).shared.streams)) =
      some ([⟨⟨2, .data, 0⟩, false, some 0⟩, ⟨⟨2, .data, 0⟩, true, none⟩], []) := by
    decide
  obtain ⟨s, hs, hfacts⟩ := Option.map_eq_some_iff.mp hfacts
  rw [Prod.mk.injEq] at hfacts
  have hrun : ((system false).restrict fun s x => drained s x = true).Run s :=
    System.Reachable.runFrom (fun _ _ _ => trivial) (.initial rfl) hs
  exact ⟨s, hs, hfacts.1, hfacts.2, accepted_at_most_once hrun.of_restrict⟩

/-- The server closes its side while the client's second message is on its way. -/
def crossing : List (Party × Move) :=
  opening .client 0 ++ flushing .client 0 1 ++ receiving 3 ++ flushing .client 0 2 ++ closing .server 0 0 2 ++ receiving 3

theorem accepted_twice : ((system false).runFrom start crossing).map (fun s =>
    ((s .server).shared.acceptedFor 0, (s .server).shared.handled)) =
    some ([0, 1], [⟨⟨2, .data, 0⟩, false, some 0⟩, ⟨⟨2, .data, 0⟩, true, some 1⟩]) := by
  decide

end Shmipc.Connection
