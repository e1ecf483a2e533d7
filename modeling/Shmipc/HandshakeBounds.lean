import Shmipc.Handshake

namespace Shmipc.Handshake

open Dialogue SessionCreate

variable {φ : Type}

inductive Outcome
  | refused
  | overflow
  | outside
  | goesOn (body : List UInt8) (bufferPath queuePath : Path)
deriving DecidableEq

def bytesAt (body : List UInt8) (off n : ℕ) : Option (List UInt8) :=
  if off + n ≤ body.length then some ((body.drop off).take n) else none

def extractWithin (body : List UInt8) : Option (Path × Path) := do
  let queuePathLen ← bytesAt body 0 2
  let queuePath ← bytesAt body 2 (loadBe16 queuePathLen)
  let bufferPathLen ← bytesAt body (2 + loadBe16 queuePathLen) 2
  let bufferPath ← bytesAt body (2 + loadBe16 queuePathLen + 2) (loadBe16 bufferPathLen)
  return (bufferPath, queuePath)

def receiveMetadata (h rest : List UInt8) : Outcome :=
  if Header.length h < kHeaderSize then .overflow
  else if rest.length < Header.length h - kHeaderSize then .refused
  else match extractWithin (rest.take (Header.length h - kHeaderSize)) with
    | none => .outside
    | some (bufferPath, queuePath) => .goesOn (rest.take (Header.length h - kHeaderSize)) bufferPath queuePath

def readEventHeader (input : List UInt8) : Option (List UInt8 × List UInt8) :=
  if input.length < kHeaderSize then none
  else match checkEventValid (input.take kHeaderSize) with
    | .error _ => none
    | .ok () => some (input.take kHeaderSize, input.drop kHeaderSize)

def initV2 (firstEvent rest : List UInt8) : Outcome :=
  if Header.msgType firstEvent = some .shareMemoryByFilePath then receiveMetadata firstEvent rest else .refused

/-- `V3Server::init` up to the paths; `wrote` tells if the answer to the first event was written. -/
def initV3 (wrote : Bool) (firstEvent rest : List UInt8) : Outcome :=
  if Header.msgType firstEvent = some .exchangeProtoVersion ∧ wrote then
    match readEventHeader rest with
    | none => .refused
    | some (h, rest) =>
      if Header.msgType h = some .shareMemoryByFilePath ∨ Header.msgType h = some .shareMemoryByMemfd then receiveMetadata h rest
      else .refused
  else .refused

def serve (wrote : Bool) (input : List UInt8) : Outcome :=
  match readEventHeader input with
  | none => .refused
  | some (firstEvent, rest) =>
    match selectVersion (Header.version firstEvent) with
    | .error _ => .refused
    | .ok .v2 => initV2 firstEvent rest
    | .ok .v3 => initV3 wrote firstEvent rest

def Outcome.Sound (input : List UInt8) : Outcome → Prop
  | .refused => True
  | .overflow | .outside => False
  | .goesOn body bufferPath queuePath => body <:+: input ∧ bufferPath <:+: body ∧ queuePath <:+: body

def WellFormed (h rest : List UInt8) : Prop :=
  kHeaderSize ≤ Header.length h ∧
    (Header.length h - kHeaderSize ≤ rest.length →
      2 + loadBe16 rest + 2 ≤ Header.length h - kHeaderSize ∧
      2 + loadBe16 rest + 2 + loadBe16 (rest.drop (2 + loadBe16 rest)) ≤ Header.length h - kHeaderSize)

def metadataEvent (input : List UInt8) : Option (List UInt8 × List UInt8) :=
  (readEventHeader input).bind fun (first, rest) =>
    if Header.version first = 2 then
      if Header.msgType first = some .shareMemoryByFilePath then some (first, rest) else none
    else if Header.version first = 3 ∧ Header.msgType first = some .exchangeProtoVersion then
      (readEventHeader rest).filter fun (h, _) =>
        Header.msgType h = some .shareMemoryByFilePath ∨ Header.msgType h = some .shareMemoryByMemfd
    else none

section Bytes

variable {body rest h : List UInt8} {off n : ℕ}

theorem bytesAt_infix {bs : List UInt8} (hbs : bytesAt body off n = some bs) : bs <:+: body := by
  rw [bytesAt] at hbs
  split_ifs at hbs
  cases hbs
  exact (List.take_prefix n _).isInfix.trans (List.drop_suffix off body).isInfix

theorem loadBe16_take (bs : List UInt8) : loadBe16 (bs.take 2) = loadBe16 bs := by
  match bs with
  | [] => rfl
  | [_] => rfl
  | _ :: _ :: _ => rfl

theorem loadBe16_take_of_le {bs : List UInt8} (hlen : 2 ≤ n) : loadBe16 (bs.take n) = loadBe16 bs := by
  rw [← loadBe16_take (bs.take n), List.take_take, min_eq_left hlen, loadBe16_take]

theorem extractWithin_isSome : (extractWithin body).isSome ↔ 2 + loadBe16 body + 2 ≤ body.length ∧
    2 + loadBe16 body + 2 + loadBe16 (body.drop (2 + loadBe16 body)) ≤ body.length := by
  simp only [extractWithin, bytesAt, Nat.zero_add, List.drop_zero]
  by_cases h2 : 2 ≤ body.length
  · simp only [if_pos h2, Option.bind_eq_bind, Option.bind_some, loadBe16_take]
    by_cases hq : 2 + loadBe16 body ≤ body.length
    · simp only [if_pos hq, Option.bind_some]
      by_cases hl : 2 + loadBe16 body + 2 ≤ body.length
      · simp only [if_pos hl, Option.bind_some, loadBe16_take]
        by_cases hb : 2 + loadBe16 body + 2 + loadBe16 (body.drop (2 + loadBe16 body)) ≤ body.length
        · simp [hl, hb]
        · simp [hb]
      · simp [hl]
    · simp [hq]
      omega
  · simp [h2]
    omega

theorem extractWithin_eq {p : Path × Path} (hp : extractWithin body = some p) :
    p = extractShmMetadata body ∧ p.1 <:+: body ∧ p.2 <:+: body := by
  simp only [extractWithin, Option.bind_eq_bind, Option.bind_eq_some_iff, Option.pure_def] at hp
  obtain ⟨ql, hql, q, hq, bl, hbl, b, hb, hpair⟩ := hp
  cases hpair
  refine ⟨?_, bytesAt_infix hb, bytesAt_infix hq⟩
  simp only [bytesAt] at hql hq hbl hb
  split_ifs at hql hq hbl hb
  cases hql
  rw [Nat.zero_add, List.drop_zero] at *
  cases hbl
  cases hq
  cases hb
  rw [extractShmMetadata]
  simp only [loadBe16_take]

theorem readEventHeader_suffix {input : List UInt8} (hread : readEventHeader input = some (h, rest)) : rest <:+ input := by
  rw [readEventHeader] at hread
  split_ifs at hread
  split at hread
  · cases hread
  · cases hread
    exact List.drop_suffix _ _

theorem extractWithin_take {n : ℕ} (hn : n ≤ rest.length) : (extractWithin (rest.take n)).isSome ↔
    2 + loadBe16 rest + 2 ≤ n ∧ 2 + loadBe16 rest + 2 + loadBe16 (rest.drop (2 + loadBe16 rest)) ≤ n := by
  rw [extractWithin_isSome, List.length_take, min_eq_left hn]
  by_cases h2 : 2 ≤ n
  · rw [loadBe16_take_of_le h2]
    apply and_congr_right
    intro hl
    rw [List.drop_take, loadBe16_take_of_le (by omega)]
  · exact iff_of_false (fun hle => h2 (by omega)) (fun hle => h2 (by omega))

theorem receiveMetadata_sound {input : List UInt8} (hrest : rest <:+ input) :
    (receiveMetadata h rest).Sound input ↔ WellFormed h rest := by
  rw [receiveMetadata, WellFormed]
  by_cases hlen : Header.length h < kHeaderSize
  · rw [if_pos hlen]
    exact iff_of_false id (fun hw => absurd hw.1 (not_le.mpr hlen))
  rw [if_neg hlen]
  by_cases hshort : rest.length < Header.length h - kHeaderSize
  · rw [if_pos hshort]
    exact iff_of_true trivial ⟨not_lt.mp hlen, fun hle => absurd hle (not_le.mpr hshort)⟩
  rw [if_neg hshort, ← extractWithin_take (not_lt.mp hshort)]
  cases hextract : extractWithin (rest.take (Header.length h - kHeaderSize)) with
  | none => exact iff_of_false id (fun hw => absurd (hw.2 (not_lt.mp hshort)) (by simp))
  | some p =>
    obtain ⟨-, hb, hq⟩ := extractWithin_eq hextract
    refine iff_of_true ⟨?_, hb, hq⟩ ⟨not_lt.mp hlen, fun _ => rfl⟩
    exact (List.take_prefix _ rest).isInfix.trans hrest.isInfix

end Bytes

theorem selectVersion_cases (v : ℕ) : (v = 2 ∧ selectVersion v = .ok .v2) ∨ (v = 3 ∧ selectVersion v = .ok .v3) ∨
    (v ≠ 2 ∧ v ≠ 3 ∧ ∃ err, selectVersion v = .error err) := by
  by_cases h2 : v = 2
  · subst h2
    exact .inl ⟨rfl, rfl⟩
  by_cases h3 : v = 3
  · subst h3
    exact .inr (.inl ⟨rfl, rfl⟩)
  refine .inr (.inr ⟨h2, h3, ?_⟩)
  unfold selectVersion
  split
  · exact absurd rfl h2
  · exact absurd rfl h3
  · exact ⟨_, rfl⟩

theorem serve_eq (input : List UInt8) : serve true input =
    match metadataEvent input with
    | none => .refused
    | some (h, rest) => receiveMetadata h rest := by
  rw [serve, metadataEvent]
  cases readEventHeader input with
  | none => rfl
  | some p =>
    obtain ⟨first, rest⟩ := p
    simp only [Option.bind_some]
    rcases selectVersion_cases (Header.version first) with ⟨hv, hs⟩ | ⟨hv, hs⟩ | ⟨h2, h3, err, hs⟩
    · rw [hs, if_pos hv]
      simp only [initV2]
      split_ifs <;> rfl
    · rw [hs, hv, if_neg (by decide)]
      simp only [initV3, and_true, true_and]
      by_cases hexchange : Header.msgType first = some .exchangeProtoVersion
      · rw [if_pos hexchange, if_pos hexchange]
        cases readEventHeader rest with
        | none => rfl
        | some p =>
          obtain ⟨h, rest'⟩ := p
          by_cases ht : Header.msgType h = some .shareMemoryByFilePath ∨ Header.msgType h = some .shareMemoryByMemfd
          · simp [Option.filter, ht]
          · simp [Option.filter, ht]
      · rw [if_neg hexchange, if_neg hexchange]
    · rw [hs, if_neg h2, if_neg (fun hv => h3 hv.1)]

theorem serve_false (input : List UInt8) : serve false input = .refused ∨ serve false input = serve true input := by
  rw [serve, serve]
  cases readEventHeader input with
  | none => exact .inl rfl
  | some p =>
    obtain ⟨first, rest⟩ := p
    rcases selectVersion_cases (Header.version first) with ⟨-, hs⟩ | ⟨-, hs⟩ | ⟨-, -, err, hs⟩
    · exact .inr (by simp only [hs])
    · exact .inl (by simp [hs, initV3])
    · exact .inl (by simp only [hs])

theorem metadataEvent_suffix {input h rest : List UInt8} (hevent : metadataEvent input = some (h, rest)) : rest <:+ input := by
  rw [metadataEvent, Option.bind_eq_some_iff] at hevent
  obtain ⟨⟨first, behind⟩, hread, hevent⟩ := hevent
  have hsuffix := readEventHeader_suffix hread
  simp only at hevent
  split_ifs at hevent
  · cases hevent
    exact hsuffix
  · exact (readEventHeader_suffix (Option.filter_eq_some_iff.mp hevent).1).trans hsuffix

theorem server_handshake_sound (input : List UInt8) : (∀ wrote, (serve wrote input).Sound input) ↔
    ∀ h rest, metadataEvent input = some (h, rest) → WellFormed h rest := by
  have hboth : (∀ wrote, (serve wrote input).Sound input) ↔ (serve true input).Sound input := by
    refine ⟨fun hall => hall true, fun hsound wrote => ?_⟩
    cases wrote with
    | true => exact hsound
    | false =>
      rcases serve_false input with hrefused | hsame
      · rw [hrefused]
        trivial
      · rwa [hsame]
  rw [hboth, serve_eq]
  cases hevent : metadataEvent input with
  | none => exact iff_of_true trivial nofun
  | some p =>
    obtain ⟨h, rest⟩ := p
    rw [receiveMetadata_sound (metadataEvent_suffix hevent)]
    refine ⟨fun hw h' rest' heq => ?_, fun hall => hall h rest rfl⟩
    cases heq
    exact hw

theorem readEventHeader_encode {l v : ℕ} {t : EventType} (h0 : v ≠ 0) (hv : v < 256) (rest : List UInt8) :
    readEventHeader (Header.encode l v t ++ rest) = some (Header.encode l v t, rest) := by
  have htake : (Header.encode l v t ++ rest).take kHeaderSize = Header.encode l v t := List.take_left' rfl
  have hdrop : (Header.encode l v t ++ rest).drop kHeaderSize = rest := List.drop_left' rfl
  have hvalid : checkEventValid (Header.encode l v t) = .ok () := by
    have happend := @Header.checkEventValid_encode l v t [] h0 hv
    rwa [List.append_nil] at happend
  have hlen : kHeaderSize ≤ (Header.encode l v t ++ rest).length := by
    rw [List.length_append]
    exact Nat.le_add_right _ _
  rw [readEventHeader, if_neg (not_lt.mpr hlen), htake, hdrop, hvalid]

-- the first frame of a client that shares its memory by files
theorem serve_filePath (length : ℕ) (body : List UInt8) : serve true (Header.encode length 2 .shareMemoryByFilePath ++ body) =
    receiveMetadata (Header.encode length 2 .shareMemoryByFilePath) body := by
  rw [serve, readEventHeader_encode (by decide) (by decide)]
  simp only
  rw [version_encode (by decide)]
  change initV2 _ body = _
  rw [initV2, if_pos msgType_encode]

theorem server_handshake_unsound :
    ¬ (serve true (Header.encode 7 2 .shareMemoryByFilePath)).Sound (Header.encode 7 2 .shareMemoryByFilePath) ∧
    ¬ (serve true (Header.encode 12 2 .shareMemoryByFilePath ++ [255, 255, 0, 0])).Sound
      (Header.encode 12 2 .shareMemoryByFilePath ++ [255, 255, 0, 0]) := by
  have hlength (l : ℕ) (hl : l < 2 ^ 32) : Header.length (Header.encode l 2 .shareMemoryByFilePath) = l := by
    have happend := @Header.length_encode l 2 .shareMemoryByFilePath [] hl
    rwa [List.append_nil] at happend
  constructor
  · have hserve := serve_filePath 7 []
    rw [List.append_nil] at hserve
    rw [hserve, receiveMetadata, hlength 7 (by decide), if_pos (by decide)]
    exact id
  · have hextract : extractWithin [255, 255, 0, 0] = none := by decide
    rw [serve_filePath, receiveMetadata, hlength 12 (by decide), if_neg (by decide), if_neg (by decide)]
    have hbody : [255, 255, 0, 0].take (12 - kHeaderSize) = ([255, 255, 0, 0] : List UInt8) := by decide
    rw [hbody, hextract]
    exact id

section Program

-- the same in the program of the server
variable (eof : Error) (registry : Path → Option (Mapping φ)) {items : List (Item φ)}

theorem drive_blockReadFull (n : ℕ) : (blockReadFull n : Conn φ _).drive eof items =
    if n ≤ items.length then .returned (.ok ((items.map Item.byte).take n)) (items.drop n) else .returned (.error eof) [] := by
  induction n generalizing items with
  | zero => rfl
  | succ n ih =>
    cases items with
    | nil => rfl
    | cons x items =>
      have hstep : (blockReadFull (n + 1) : Conn φ _).drive eof (x :: items) =
          ((blockReadFull n : Conn φ _).drive eof items).bind fun data rest => .returned (.ok (x.byte :: data)) rest :=
        Prog.drive_bind eof (blockReadFull n) _ items
      rw [hstep, ih]
      rw [List.length_cons]
      by_cases hle : n ≤ items.length
      · rw [if_pos hle, if_pos (Nat.succ_le_succ hle)]
        rfl
      · rw [if_neg hle, if_neg (fun hs => hle (Nat.le_of_succ_le_succ hs))]
        rfl

theorem drive_blockWriteFull (data : List UInt8) : (blockWriteFull data : Conn φ _).drive eof items = .returned (.ok ()) items := by
  induction data with
  | nil => rfl
  | cons b data ih => exact ih

theorem drive_header_some {h rest : List UInt8} (hread : readEventHeader (items.map Item.byte) = some (h, rest)) :
    (blockReadEventHeader : Conn φ _).drive eof items = .returned (.ok h) (items.drop kHeaderSize) ∧
      rest = (items.drop kHeaderSize).map Item.byte := by
  rw [readEventHeader, List.length_map] at hread
  by_cases hlen : items.length < kHeaderSize
  · rw [if_pos hlen] at hread
    cases hread
  rw [if_neg hlen] at hread
  cases hvalid : checkEventValid ((items.map Item.byte).take kHeaderSize) with
  | error err =>
    rw [hvalid] at hread
    cases hread
  | ok u =>
    rw [hvalid] at hread
    cases hread
    refine ⟨?_, by rw [List.map_drop]⟩
    rw [blockReadEventHeader, Prog.drive_bind, drive_blockReadFull, if_pos (not_lt.mp hlen)]
    simp only [Halt.bind, hvalid]
    rfl

theorem drive_header_none (hread : readEventHeader (items.map Item.byte) = none) :
    ((blockReadEventHeader : Conn φ _).drive eof items).Failed := by
  rw [readEventHeader, List.length_map] at hread
  rw [blockReadEventHeader, Prog.drive_bind, drive_blockReadFull]
  by_cases hlen : items.length < kHeaderSize
  · rw [if_neg (not_le.mpr hlen)]
    trivial
  rw [if_neg hlen] at hread
  rw [if_pos (not_lt.mp hlen)]
  cases hvalid : checkEventValid ((items.map Item.byte).take kHeaderSize) with
  | error err =>
    simp only [Halt.bind, hvalid]
    trivial
  | ok u =>
    rw [hvalid] at hread
    cases hread

def Reflects {α : Type} (d : Halt (Item φ) (Effect φ) Error α) : Outcome → Prop
  | .refused => d.Failed
  | .goesOn _ _ queuePath => d.Failed ∨ ∃ memfd, d = .asked (.mapQueue queuePath memfd)
  | _ => True

theorem Reflects.bind {α β : Type} {d : Halt (Item φ) (Effect φ) Error α} {o : Outcome} (h : Reflects d o)
    (f : α → List (Item φ) → Halt (Item φ) (Effect φ) Error β) : Reflects (d.bind f) o := by
  cases o with
  | refused => exact Halt.Failed.bind h f
  | overflow => trivial
  | outside => trivial
  | goesOn body b q =>
    rcases h with h | ⟨memfd, rfl⟩
    · exact .inl (h.bind f)
    · exact .inr ⟨memfd, rfl⟩

theorem bodyLen_eq {h : List UInt8} (hlen : kHeaderSize ≤ Header.length h) : bodyLen h = Header.length h - kHeaderSize := by
  have hlt : Header.length h < 4294967296 := by
    have h0 := (h.getD 0 0).toNat_lt
    have h1 := (h.getD 1 0).toNat_lt
    have h2 := (h.getD 2 0).toNat_lt
    have h3 := (h.getD 3 0).toNat_lt
    rw [Header.length, loadBe32]
    omega
  have h8 : kHeaderSize = 8 := rfl
  rw [bodyLen, u64]
  omega

theorem reflects_receive {α : Type} {h : List UInt8} {d : Halt (Item φ) (Effect φ) Error (List UInt8)}
    (hok : bodyLen h ≤ items.length → d = .returned (.ok ((items.map Item.byte).take (bodyLen h))) (items.drop (bodyLen h)))
    (herr : items.length < bodyLen h → d.Failed) {f : List UInt8 → List (Item φ) → Halt (Item φ) (Effect φ) Error α}
    (hf : ∀ body rest, (f body rest).Failed ∨ ∃ memfd, f body rest = .asked (.mapQueue (extractShmMetadata body).2 memfd)) :
    Reflects (d.bind f) (receiveMetadata h (items.map Item.byte)) := by
  rw [receiveMetadata]
  by_cases hlen : Header.length h < kHeaderSize
  · rw [if_pos hlen]
    trivial
  rw [bodyLen_eq (not_lt.mp hlen)] at hok herr
  rw [if_neg hlen, List.length_map]
  by_cases hshort : items.length < Header.length h - kHeaderSize
  · rw [if_pos hshort]
    exact (herr hshort).bind f
  rw [if_neg hshort, hok (not_lt.mp hshort)]
  cases hextract : extractWithin ((items.map Item.byte).take (Header.length h - kHeaderSize)) with
  | none => trivial
  | some p =>
    obtain ⟨b, q⟩ := p
    have hq : q = (extractShmMetadata ((items.map Item.byte).take (Header.length h - kHeaderSize))).2 :=
      congrArg Prod.snd (extractWithin_eq hextract).1
    rw [hq]
    exact hf _ _

theorem reflects_filePath (h : List UInt8) : Reflects ((Server.handleShareMemoryByFilePath registry h).drive eof items)
    (receiveMetadata h (items.map Item.byte)) := by
  rw [Server.handleShareMemoryByFilePath, Prog.drive_bind, drive_blockReadFull]
  apply reflects_receive
  · intro hle
    rw [if_pos hle]
  · intro hlt
    rw [if_neg (not_le.mpr hlt)]
    trivial
  · intro body rest
    exact .inr ⟨none, rfl⟩

theorem reflects_memfd (h : List UInt8) (version : ℕ) :
    Reflects ((Server.handleShareMemoryByMemfd registry h version).drive eof items) (receiveMetadata h (items.map Item.byte)) := by
  rw [Server.handleShareMemoryByMemfd, Prog.drive_bind, Prog.drive_tryCatch, drive_blockReadFull]
  apply reflects_receive
  · intro hle
    rw [if_pos hle]
    rfl
  · intro hlt
    rw [if_neg (not_le.mpr hlt)]
    trivial
  · intro body rest
    rw [Prog.drive_bind, Prog.drive_tryCatch, drive_blockWriteFull]
    -- the answer is written, then the descriptors are awaited
    cases rest with
    | nil => exact .inl trivial
    | cons x rest =>
      obtain ⟨byte, fds⟩ := x
      rcases fds with - | ⟨bufferFd, - | ⟨queueFd, fds⟩⟩
      · exact .inl trivial
      · exact .inl trivial
      · exact .inr ⟨some queueFd, rfl⟩

theorem reflects_shareMemory (h : List UInt8) : Reflects ((Server.shareMemory registry h).drive eof items)
    (if Header.msgType h = some .shareMemoryByFilePath ∨ Header.msgType h = some .shareMemoryByMemfd then
      receiveMetadata h (items.map Item.byte) else .refused) := by
  rw [Server.shareMemory]
  split
  · next ht =>
    rw [if_pos (.inl ht)]
    exact reflects_filePath eof registry h
  · next ht =>
    rw [if_pos (.inr ht)]
    exact reflects_memfd eof registry h 3
  · next hfile hmemfd =>
    rw [if_neg (not_or.mpr ⟨hfile, hmemfd⟩)]
    trivial

theorem reflects_init {h rest : List UInt8} (version : Version) (hrest : rest = items.map Item.byte) :
    Reflects ((Server.init registry h version).drive eof items)
      (match version with
        | .v2 => initV2 h rest
        | .v3 => initV3 true h rest) := by
  subst hrest
  cases version with
  | v2 =>
    simp only [Server.init, initV2]
    split_ifs
    · exact reflects_filePath eof registry h
    · trivial
  | v3 =>
    simp only [Server.init, initV3, and_true]
    split_ifs
    · rw [Prog.drive_bind, Prog.drive_tryCatch, Server.handleExchangeVersion, drive_blockWriteFull]
      simp only [Halt.handle, Halt.bind]
      rw [Prog.drive_bind, Prog.drive_tryCatch]
      cases hread : readEventHeader (items.map Item.byte) with
      | none =>
        apply Halt.Failed.bind
        apply (drive_header_none eof hread).handle
        intro err rest
        trivial
      | some p =>
        obtain ⟨h, rest⟩ := p
        obtain ⟨hdrive, rfl⟩ := drive_header_some eof hread
        rw [hdrive]
        simp only [Halt.handle, Halt.bind]
        rw [Prog.drive_bind]
        exact (reflects_shareMemory eof registry h).bind _
    · trivial

theorem server_reflects : Reflects ((Server.initServerProtocol registry).drive eof items) (serve true (items.map Item.byte)) := by
  rw [Server.initServerProtocol, Prog.drive_bind, serve]
  cases hread : readEventHeader (items.map Item.byte) with
  | none => exact (drive_header_none eof hread).bind _
  | some p =>
    obtain ⟨h, rest⟩ := p
    obtain ⟨hdrive, hrest⟩ := drive_header_some eof hread
    rw [hdrive]
    simp only [Halt.bind]
    rcases selectVersion_cases (Header.version h) with ⟨-, hs⟩ | ⟨-, hs⟩ | ⟨-, -, err, hs⟩
    · rw [hs]
      simp only
      rw [Prog.drive_bind]
      exact (reflects_init eof registry .v2 hrest).bind _
    · rw [hs]
      simp only
      rw [Prog.drive_bind]
      exact (reflects_init eof registry .v3 hrest).bind _
    · rw [hs]
      trivial

end Program

end Shmipc.Handshake
