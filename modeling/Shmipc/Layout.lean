import Shmipc.Library.ByteMemory

namespace Shmipc

open ByteMemory

def kBufferHeaderSize : ℕ := 20
def kBufferCapOffset : ℕ := 0
def kBufferSizeOffset : ℕ := kBufferCapOffset + 4
def kBufferDataStartOffset : ℕ := kBufferSizeOffset + 4
def kNextBufferOffset : ℕ := kBufferDataStartOffset + 4
def kBufferFlagOffset : ℕ := kNextBufferOffset + 4

def kHasNextBufferFlag : UInt8 := 1
def kSliceInUsedFlag : UInt8 := 2

def u32 (n : ℕ) : ℕ := n % 4294967296

def u64 (n : ℕ) : ℕ := n % 18446744073709551616

def u32sub (a b : ℕ) : ℕ := (a + 4294967296 - b % 4294967296) % 4294967296

namespace BufferHeader

def nextBufferOffset (m : Mem) (p : ℕ) : ℕ := load32 m (p + kNextBufferOffset)

def hasNext (m : Mem) (p : ℕ) : Bool := decide (m (p + kBufferFlagOffset) &&& kHasNextBufferFlag > 0)

def clearFlag (m : Mem) (p : ℕ) : Mem := store8 m (p + kBufferFlagOffset) 0

def setInUsed (m : Mem) (p : ℕ) : Mem :=
  store8 m (p + kBufferFlagOffset) (m (p + kBufferFlagOffset) ||| kSliceInUsedFlag)

def isInUsed (m : Mem) (p : ℕ) : Bool := decide (m (p + kBufferFlagOffset) &&& kSliceInUsedFlag > 0)

def setHasNext (m : Mem) (p : ℕ) : Mem :=
  store8 m (p + kBufferFlagOffset) (m (p + kBufferFlagOffset) ||| kHasNextBufferFlag)

def setNext (m : Mem) (p next : ℕ) : Mem := store32 m (p + kNextBufferOffset) next

def linkNext (m : Mem) (p next : ℕ) : Mem := setHasNext (setNext m p next) p

def cap (m : Mem) (p : ℕ) : ℕ := load32 m (p + kBufferCapOffset)

def size (m : Mem) (p : ℕ) : ℕ := load32 m (p + kBufferSizeOffset)

def setSize (m : Mem) (p v : ℕ) : Mem := store32 m (p + kBufferSizeOffset) v

def start (m : Mem) (p : ℕ) : ℕ := load32 m (p + kBufferDataStartOffset)

def setStart (m : Mem) (p v : ℕ) : Mem := store32 m (p + kBufferDataStartOffset) v

end BufferHeader

theorem kBufferSizeOffset_eq : kBufferSizeOffset = 4 := rfl

theorem kBufferDataStartOffset_eq : kBufferDataStartOffset = 8 := rfl

theorem kBufferCapOffset_eq : kBufferCapOffset = 0 := rfl

theorem kNextBufferOffset_eq : kNextBufferOffset = 12 := rfl

theorem kBufferFlagOffset_eq : kBufferFlagOffset = 16 := rfl

theorem kBufferHeaderSize_eq : kBufferHeaderSize = 20 := by decide

theorem flag_link (f : UInt8) : (f ||| kHasNextBufferFlag) &&& kHasNextBufferFlag > 0 ∧
    (f ||| kHasNextBufferFlag) &&& kSliceInUsedFlag = f &&& kSliceInUsedFlag := by
  cases f with
  | ofBitVec f =>
    cases f with
    | ofFin f =>
      revert f
      decide +kernel

theorem flag_use (f : UInt8) : (f ||| kSliceInUsedFlag) &&& kSliceInUsedFlag > 0 ∧
    (f ||| kSliceInUsedFlag) &&& kHasNextBufferFlag = f &&& kHasNextBufferFlag := by
  cases f with
  | ofBitVec f =>
    cases f with
    | ofFin f =>
      revert f
      decide +kernel

namespace BufferHeader

theorem nextBufferOffset_lt (m : Mem) (p : ℕ) : nextBufferOffset m p < 4294967296 := load32_lt m _

theorem cap_lt (m : Mem) (p : ℕ) : cap m p < 4294967296 := load32_lt m _

theorem size_lt (m : Mem) (p : ℕ) : size m p < 4294967296 := load32_lt m _

theorem start_lt (m : Mem) (p : ℕ) : start m p < 4294967296 := load32_lt m _

section Frame

variable (m : Mem) (p : ℕ) {lo hi : ℕ}

theorem sameOn_clearFlag (h : p + 20 ≤ lo ∨ hi ≤ p) : SameOn m (clearFlag m p) lo hi := by
  apply sameOn_store8
  rw [kBufferFlagOffset_eq]
  omega

theorem sameOn_setInUsed (h : p + 20 ≤ lo ∨ hi ≤ p) : SameOn m (setInUsed m p) lo hi := by
  apply sameOn_store8
  rw [kBufferFlagOffset_eq]
  omega

theorem sameOn_setHasNext (h : p + 20 ≤ lo ∨ hi ≤ p) : SameOn m (setHasNext m p) lo hi := by
  apply sameOn_store8
  rw [kBufferFlagOffset_eq]
  omega

theorem sameOn_setNext (v : ℕ) (h : p + 20 ≤ lo ∨ hi ≤ p) : SameOn m (setNext m p v) lo hi := by
  apply sameOn_store32
  rw [kNextBufferOffset_eq]
  omega

theorem sameOn_linkNext (v : ℕ) (h : p + 20 ≤ lo ∨ hi ≤ p) : SameOn m (linkNext m p v) lo hi :=
  (sameOn_setNext m p v h).trans (sameOn_setHasNext _ p h)

theorem sameOn_setSize (v : ℕ) (h : p + 20 ≤ lo ∨ hi ≤ p) : SameOn m (setSize m p v) lo hi := by
  apply sameOn_store32
  rw [kBufferSizeOffset_eq]
  omega

theorem sameOn_setStart (v : ℕ) (h : p + 20 ≤ lo ∨ hi ≤ p) : SameOn m (setStart m p v) lo hi := by
  apply sameOn_store32
  rw [kBufferDataStartOffset_eq]
  omega

end Frame

section Congr

variable {m m' : Mem} {p : ℕ}

theorem flag_congr (h : SameOn m m' p (p + 20)) :
    m' (p + kBufferFlagOffset) = m (p + kBufferFlagOffset) := by
  rw [kBufferFlagOffset_eq]
  exact h _ (by omega) (by omega)

theorem hasNext_congr (h : SameOn m m' p (p + 20)) : hasNext m' p = hasNext m p := by
  rw [hasNext, hasNext, flag_congr h]

theorem isInUsed_congr (h : SameOn m m' p (p + 20)) : isInUsed m' p = isInUsed m p := by
  rw [isInUsed, isInUsed, flag_congr h]

theorem nextBufferOffset_congr (h : SameOn m m' p (p + 20)) :
    nextBufferOffset m' p = nextBufferOffset m p := by
  unfold nextBufferOffset
  rw [kNextBufferOffset_eq]
  exact load32_congr (h.mono (by omega) (by omega))

theorem cap_congr (h : SameOn m m' p (p + 20)) : cap m' p = cap m p := by
  unfold cap
  rw [kBufferCapOffset_eq]
  exact load32_congr (h.mono (by omega) (by omega))

theorem size_congr (h : SameOn m m' p (p + 20)) : size m' p = size m p := by
  unfold size
  rw [kBufferSizeOffset_eq]
  exact load32_congr (h.mono (by omega) (by omega))

theorem start_congr (h : SameOn m m' p (p + 20)) : start m' p = start m p := by
  unfold start
  rw [kBufferDataStartOffset_eq]
  exact load32_congr (h.mono (by omega) (by omega))

end Congr

section Effect

variable (m : Mem) (p v : ℕ)

theorem words_store8 (b : UInt8) :
    nextBufferOffset (store8 m (p + kBufferFlagOffset) b) p = nextBufferOffset m p ∧
    cap (store8 m (p + kBufferFlagOffset) b) p = cap m p ∧
    size (store8 m (p + kBufferFlagOffset) b) p = size m p ∧
    start (store8 m (p + kBufferFlagOffset) b) p = start m p := by
  simp only [nextBufferOffset, cap, size, start, kBufferCapOffset_eq, kBufferSizeOffset_eq, kBufferDataStartOffset_eq,
    kNextBufferOffset_eq, kBufferFlagOffset_eq]
  refine ⟨?_, ?_, ?_, ?_⟩ <;> exact load32_store8_of_disjoint m b (by omega)

@[simp] theorem clearFlag_fields :
    hasNext (clearFlag m p) p = false ∧ isInUsed (clearFlag m p) p = false ∧
    nextBufferOffset (clearFlag m p) p = nextBufferOffset m p ∧ cap (clearFlag m p) p = cap m p ∧
    size (clearFlag m p) p = size m p ∧ start (clearFlag m p) p = start m p := by
  refine ⟨?_, ?_, words_store8 m p 0⟩ <;> simp [hasNext, isInUsed, clearFlag]

@[simp] theorem setInUsed_fields :
    hasNext (setInUsed m p) p = hasNext m p ∧ isInUsed (setInUsed m p) p = true ∧
    nextBufferOffset (setInUsed m p) p = nextBufferOffset m p ∧ cap (setInUsed m p) p = cap m p ∧
    size (setInUsed m p) p = size m p ∧ start (setInUsed m p) p = start m p := by
  obtain ⟨hu, hk⟩ := flag_use (m (p + kBufferFlagOffset))
  refine ⟨?_, ?_, words_store8 m p _⟩
  · simp only [hasNext, setInUsed, store8_same, hk]
  · simpa only [isInUsed, setInUsed, store8_same, decide_eq_true_eq] using hu

@[simp] theorem setHasNext_fields :
    hasNext (setHasNext m p) p = true ∧ isInUsed (setHasNext m p) p = isInUsed m p ∧
    nextBufferOffset (setHasNext m p) p = nextBufferOffset m p ∧ cap (setHasNext m p) p = cap m p ∧
    size (setHasNext m p) p = size m p ∧ start (setHasNext m p) p = start m p := by
  obtain ⟨hu, hk⟩ := flag_link (m (p + kBufferFlagOffset))
  refine ⟨?_, ?_, words_store8 m p _⟩
  · simpa only [hasNext, setHasNext, store8_same, decide_eq_true_eq] using hu
  · simp only [isInUsed, setHasNext, store8_same, hk]

theorem flags_store32 {a : ℕ} (h : a + 4 ≤ p + 16) :
    hasNext (store32 m a v) p = hasNext m p ∧ isInUsed (store32 m a v) p = isInUsed m p := by
  have hb : store32 m a v (p + kBufferFlagOffset) = m (p + kBufferFlagOffset) := by
    rw [kBufferFlagOffset_eq]
    exact store32_apply_of_disjoint m v (by omega)
  simp only [hasNext, isInUsed, hb, and_self]

@[simp] theorem setNext_fields :
    hasNext (setNext m p v) p = hasNext m p ∧ isInUsed (setNext m p v) p = isInUsed m p ∧
    nextBufferOffset (setNext m p v) p = v % 4294967296 ∧ cap (setNext m p v) p = cap m p ∧
    size (setNext m p v) p = size m p ∧ start (setNext m p v) p = start m p := by
  obtain ⟨h1, h2⟩ := flags_store32 m p v (a := p + 12) (by omega)
  simp only [nextBufferOffset, cap, size, start, setNext, kBufferCapOffset_eq, kBufferSizeOffset_eq,
    kBufferDataStartOffset_eq, kNextBufferOffset_eq, h1, h2, true_and,
    load32_store32_same]
  refine ⟨?_, ?_, ?_⟩ <;> exact load32_store32_of_disjoint m v (by omega)

@[simp] theorem setSize_fields :
    hasNext (setSize m p v) p = hasNext m p ∧ isInUsed (setSize m p v) p = isInUsed m p ∧
    nextBufferOffset (setSize m p v) p = nextBufferOffset m p ∧ cap (setSize m p v) p = cap m p ∧
    size (setSize m p v) p = v % 4294967296 ∧ start (setSize m p v) p = start m p := by
  obtain ⟨h1, h2⟩ := flags_store32 m p v (a := p + 4) (by omega)
  simp only [nextBufferOffset, cap, size, start, setSize, kBufferCapOffset_eq, kBufferSizeOffset_eq,
    kBufferDataStartOffset_eq, kNextBufferOffset_eq, h1, h2, true_and,
    load32_store32_same]
  refine ⟨?_, ?_, ?_⟩ <;> exact load32_store32_of_disjoint m v (by omega)

@[simp] theorem setStart_fields :
    hasNext (setStart m p v) p = hasNext m p ∧ isInUsed (setStart m p v) p = isInUsed m p ∧
    nextBufferOffset (setStart m p v) p = nextBufferOffset m p ∧ cap (setStart m p v) p = cap m p ∧
    size (setStart m p v) p = size m p ∧ start (setStart m p v) p = v % 4294967296 := by
  obtain ⟨h1, h2⟩ := flags_store32 m p v (a := p + 8) (by omega)
  simp only [nextBufferOffset, cap, size, start, setStart, kBufferCapOffset_eq, kBufferSizeOffset_eq,
    kBufferDataStartOffset_eq, kNextBufferOffset_eq, h1, h2, true_and,
    and_true, load32_store32_same]
  refine ⟨?_, ?_, ?_⟩ <;> exact load32_store32_of_disjoint m v (by omega)

@[simp] theorem linkNext_fields :
    hasNext (linkNext m p v) p = true ∧ isInUsed (linkNext m p v) p = isInUsed m p ∧
    nextBufferOffset (linkNext m p v) p = v % 4294967296 ∧ cap (linkNext m p v) p = cap m p ∧
    size (linkNext m p v) p = size m p ∧ start (linkNext m p v) p = start m p := by
  simp [linkNext]

end Effect

end BufferHeader

end Shmipc
