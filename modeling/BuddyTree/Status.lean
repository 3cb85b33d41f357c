/-
# The status byte of a tree node

A node of the tree is described by one byte with five flags:

     7..5      4          3             2            1          0
    unused   block   left coales.  right coales.  left occ.  right occ.

* *block*: the node itself is an allocated block;
* *occupied* (one flag for each child): something below that child is allocated;
* *coalescing* (one flag for each child): a release is on its way up from that child.

A node that is an allocated block is *busy*: block and both occupied flags.  The three unused
bits are never set by the allocator, and no operation here touches them.

The main facts say what each operation does to each flag (`has_insert`, `has_erase`), that a byte
is determined by its flags and its unused bits (`ext_has`), and when two bytes differ in coalescing
flags only (`settled_eq_settled_iff`).
-/
import BuddyTree.Hex
import BuddyTree.NodeId

namespace BuddyTree

/-! ## 1. Flags -/

/-- One of the five named bits. -/
inductive Flag where
  | block
  | occupied (child : Side)
  | coalescing (child : Side)
  deriving DecidableEq, Repr

namespace Flag

/-- The byte with this flag alone. -/
def mask : Flag → UInt8
  | occupied .right => 0x01
  | occupied .left => 0x02
  | coalescing .right => 0x04
  | coalescing .left => 0x08
  | block => 0x10

/-- The position of the flag in the byte. -/
def bit : Flag → Nat
  | occupied .right => 0
  | occupied .left => 1
  | coalescing .right => 2
  | coalescing .left => 3
  | block => 4

/-- The written name. -/
def name : Flag → String
  | occupied .right => "OCC_RIGHT"
  | occupied .left => "OCC_LEFT"
  | coalescing .right => "COAL_RIGHT"
  | coalescing .left => "COAL_LEFT"
  | block => "OCC"

/-- All flags, lowest bit first. -/
def all : List Flag :=
  [occupied .right, occupied .left, coalescing .right, coalescing .left, block]

theorem bit_lt (f : Flag) : f.bit < 5 := by
  cases f with
  | block => decide
  | occupied c => cases c <;> decide
  | coalescing c => cases c <;> decide

theorem bit_inj {f g : Flag} : f.bit = g.bit ↔ f = g := by
  cases f with
  | block => cases g with
    | block => decide
    | occupied c => cases c <;> decide
    | coalescing c => cases c <;> decide
  | occupied b => cases g with
    | block => cases b <;> decide
    | occupied c => cases b <;> cases c <;> decide
    | coalescing c => cases b <;> cases c <;> decide
  | coalescing b => cases g with
    | block => cases b <;> decide
    | occupied c => cases b <;> cases c <;> decide
    | coalescing c => cases b <;> cases c <;> decide

theorem mask_getLsbD (f : Flag) (i : Nat) : f.mask.toBitVec.getLsbD i = decide (i = f.bit) := by
  have key : ∀ j : Fin 8, f.mask.toBitVec.getLsbD j = decide (j.val = f.bit) := by
    cases f with
    | block => decide
    | occupied c => cases c <;> decide
    | coalescing c => cases c <;> decide
  by_cases h : i < 8
  · exact key ⟨i, h⟩
  · have := f.bit_lt
    rw [BitVec.getLsbD_of_ge _ _ (by omega), eq_comm, decide_eq_false_iff_not]
    omega

end Flag

/-! ## 2. The byte -/

/-- The status of one node. -/
structure Status where
  /-- All eight bits, the unused ones included. -/
  byte : UInt8
  deriving DecidableEq, Repr, Inhabited

namespace Status

/-- No flag at all. -/
def clear : Status := ⟨0⟩

/-- The status of an allocated block: block and both occupied flags. -/
def busy : Status := ⟨0x13⟩

/-- The five named bits. -/
def namedBits : UInt8 := 0x1f

/-- Is the flag set? -/
def has (s : Status) (f : Flag) : Bool :=
  s.byte &&& f.mask != 0

/-- Set the flag. -/
def insert (s : Status) (f : Flag) : Status :=
  ⟨s.byte ||| f.mask⟩

/-- Clear the flag. -/
def erase (s : Status) (f : Flag) : Status :=
  ⟨s.byte &&& ~~~f.mask⟩

/-- Neither a block nor occupied on a side.  Coalescing flags do not count. -/
def isFree (s : Status) : Bool :=
  s.byte &&& busy.byte == 0

/-! ## 3. One child's flags

The climbs of the allocator know the child they came from, and read or write that child's flags
or those of its buddy, the other child. -/

/-- Is something allocated below that child? -/
def isOccupied (s : Status) (child : Side) : Bool :=
  s.has (.occupied child)

/-- Is a release on its way up from that child? -/
def isCoalescing (s : Status) (child : Side) : Bool :=
  s.has (.coalescing child)

/-- Record that something below the child is allocated. -/
def mark (s : Status) (child : Side) : Status :=
  s.insert (.occupied child)

/-- Forget the child: both its flags are cleared. -/
def unmark (s : Status) (child : Side) : Status :=
  (s.erase (.occupied child)).erase (.coalescing child)

/-- Announce a release from the child. -/
def announce (s : Status) (child : Side) : Status :=
  s.insert (.coalescing child)

/-- Withdraw the announcement. -/
def withdraw (s : Status) (child : Side) : Status :=
  s.erase (.coalescing child)

/-- The status without its coalescing flags. -/
def settled (s : Status) : Status :=
  (s.withdraw .left).withdraw .right

/-! ## 4. Sets of flags -/

/-- The byte as a set of flags, if it has no unused bit. -/
def ofNamed? (b : UInt8) : Option Status :=
  if b &&& ~~~namedBits == 0 then some ⟨b⟩ else none

/-- The flags alone, unused bits dropped. -/
def truncate (s : Status) : Status :=
  ⟨s.byte &&& namedBits⟩

/-- Exactly the flags that are not set. -/
def complement (s : Status) : Status :=
  ⟨~~~s.byte &&& namedBits⟩

/-- Are all flags of a busy node set? -/
def isBusy (s : Status) : Bool :=
  s.byte &&& busy.byte == busy.byte

/-- The names of the flags that are set, lowest bit first, then the unused bits as one number;
an empty set is written as zero. -/
def parts (s : Status) : List String :=
  let named := (Flag.all.filter s.has).map Flag.name
  let unused := s.byte &&& ~~~namedBits
  if s.byte == 0 then ["0x0"]
  else if unused == 0 then named
  else named ++ [Hex.ofAddress unused.toNat]

/-- The written form of a status. -/
def text (s : Status) : String :=
  "Status(" ++ " | ".intercalate s.parts ++ ")"

/-! ## 5. What the operations do to each flag -/

theorem has_eq_getLsbD (s : Status) (f : Flag) : s.has f = s.byte.toBitVec.getLsbD f.bit := by
  have key : ∀ i : Fin (2 ^ 8),
      (UInt8.ofBitVec ⟨i⟩ &&& f.mask != 0) = (BitVec.ofFin i).getLsbD f.bit := by
    cases f with
    | block => decide +kernel
    | occupied c => cases c <;> decide +kernel
    | coalescing c => cases c <;> decide +kernel
  exact key s.byte.toBitVec.toFin

@[simp] theorem has_insert (s : Status) (f g : Flag) :
    (s.insert f).has g = (s.has g || decide (g = f)) := by
  rw [has_eq_getLsbD, has_eq_getLsbD, insert, UInt8.toBitVec_or, BitVec.getLsbD_or,
    Flag.mask_getLsbD]
  simp only [Flag.bit_inj]

@[simp] theorem has_erase (s : Status) (f g : Flag) :
    (s.erase f).has g = (s.has g && !decide (g = f)) := by
  have := g.bit_lt
  rw [has_eq_getLsbD, has_eq_getLsbD, erase, UInt8.toBitVec_and, BitVec.getLsbD_and,
    UInt8.toBitVec_not, BitVec.getLsbD_not, Flag.mask_getLsbD]
  simp only [Flag.bit_inj, show g.bit < 8 by omega, decide_true, Bool.true_and]

@[simp] theorem has_clear (f : Flag) : clear.has f = false := by
  simp [has, clear]

@[simp] theorem has_mark (s : Status) (c : Side) (f : Flag) :
    (s.mark c).has f = (s.has f || decide (f = .occupied c)) :=
  has_insert s _ f

@[simp] theorem has_announce (s : Status) (c : Side) (f : Flag) :
    (s.announce c).has f = (s.has f || decide (f = .coalescing c)) :=
  has_insert s _ f

@[simp] theorem has_withdraw (s : Status) (c : Side) (f : Flag) :
    (s.withdraw c).has f = (s.has f && !decide (f = .coalescing c)) :=
  has_erase s _ f

@[simp] theorem has_unmark (s : Status) (c : Side) (f : Flag) :
    (s.unmark c).has f =
      (s.has f && !decide (f = .occupied c) && !decide (f = .coalescing c)) := by
  rw [unmark, has_erase, has_erase]

@[simp] theorem has_settled (s : Status) (f : Flag) :
    s.settled.has f =
      (s.has f && !decide (f = .coalescing .left) && !decide (f = .coalescing .right)) := by
  rw [settled, has_withdraw, has_withdraw]

/-- **A byte is its flags and its unused bits.** -/
theorem ext_has {s t : Status} (h : ∀ f, s.has f = t.has f)
    (unused : ∀ i, 5 ≤ i → s.byte.toBitVec.getLsbD i = t.byte.toBitVec.getLsbD i) : s = t := by
  obtain ⟨a⟩ := s
  obtain ⟨b⟩ := t
  congr 1
  apply UInt8.eq_of_toBitVec_eq
  apply BitVec.eq_of_getLsbD_eq
  intro i _
  by_cases hi : 5 ≤ i
  · exact unused i hi
  · have : ∃ f : Flag, f.bit = i := by
      have : i = 0 ∨ i = 1 ∨ i = 2 ∨ i = 3 ∨ i = 4 := by omega
      rcases this with rfl | rfl | rfl | rfl | rfl
      · exact ⟨.occupied .right, rfl⟩
      · exact ⟨.occupied .left, rfl⟩
      · exact ⟨.coalescing .right, rfl⟩
      · exact ⟨.coalescing .left, rfl⟩
      · exact ⟨.block, rfl⟩
    obtain ⟨f, rfl⟩ := this
    have hf := h f
    rwa [has_eq_getLsbD, has_eq_getLsbD] at hf

/-- Free means that neither the block flag nor an occupied flag is set. -/
theorem isFree_iff (s : Status) :
    s.isFree = true ↔ s.has .block = false ∧ ∀ c, s.isOccupied c = false := by
  have key : ∀ i : Fin (2 ^ 8),
      (UInt8.ofBitVec ⟨i⟩ &&& 0x13 == 0) =
        (UInt8.ofBitVec ⟨i⟩ &&& 0x10 == 0 && UInt8.ofBitVec ⟨i⟩ &&& 0x02 == 0 &&
          UInt8.ofBitVec ⟨i⟩ &&& 0x01 == 0) := by decide +kernel
  have h := key s.byte.toBitVec.toFin
  constructor
  · intro hs
    have h3 := h.symm.trans hs
    simp only [Bool.and_eq_true, beq_iff_eq] at h3
    refine ⟨by simp [has, Flag.mask, bne, h3.1.1], ?_⟩
    intro c
    cases c
    · simp [isOccupied, has, Flag.mask, bne, h3.1.2]
    · simp [isOccupied, has, Flag.mask, bne, h3.2]
  · rintro ⟨hb, ho⟩
    have hl := ho .left
    have hr := ho .right
    simp only [isOccupied, has, Flag.mask, bne_eq_false_iff_eq] at hb hl hr
    refine h.trans ?_
    simp only [Bool.and_eq_true, beq_iff_eq]
    exact ⟨⟨hb, hl⟩, hr⟩

theorem isFree_eq_false_iff (s : Status) :
    s.isFree = false ↔ s.has .block = true ∨ ∃ c, s.isOccupied c = true := by
  rw [← Bool.not_eq_true, isFree_iff]
  constructor
  · intro hnot
    by_cases hb : s.has .block = true
    · exact .inl hb
    · have hocc : ¬ ∀ c, s.isOccupied c = false :=
        fun hall => hnot ⟨(Bool.not_eq_true _).mp hb, hall⟩
      exact .inr (by simpa using hocc)
  · rintro (hb | ⟨c, hc⟩) ⟨hb', hall⟩
    · exact Bool.noConfusion (hb.symm.trans hb')
    · exact Bool.noConfusion (hc.symm.trans (hall c))

/-- Settling twice is settling once. -/
theorem settled_settled (s : Status) : s.settled.settled = s.settled := by
  have key : ∀ i : Fin (2 ^ 8),
      (UInt8.ofBitVec ⟨i⟩ &&& ~~~8 &&& ~~~4 &&& ~~~8 &&& ~~~4) =
        (UInt8.ofBitVec ⟨i⟩ &&& ~~~8 &&& ~~~4) := by decide +kernel
  exact congrArg Status.mk (key s.byte.toBitVec.toFin)

/-! ## 6. Without coalescing flags -/

theorem settled_busy : busy.settled = busy := by decide

theorem settled_clear : clear.settled = clear := by decide

/-- Coalescing flags do not make a node free or take that away. -/
@[simp] theorem isFree_settled (s : Status) : s.settled.isFree = s.isFree := by
  rw [Bool.eq_iff_iff, isFree_iff, isFree_iff]
  simp [isOccupied]

@[simp] theorem isOccupied_settled (s : Status) (c : Side) :
    s.settled.isOccupied c = s.isOccupied c := by
  simp [isOccupied]

/-- The unused bits stay when a flag is set, -/
theorem unused_insert (s : Status) (f : Flag) {i : Nat} (hi : 5 ≤ i) :
    (s.insert f).byte.toBitVec.getLsbD i = s.byte.toBitVec.getLsbD i := by
  have := f.bit_lt
  rw [insert, UInt8.toBitVec_or, BitVec.getLsbD_or, Flag.mask_getLsbD,
    decide_eq_false (show ¬ i = f.bit by omega), Bool.or_false]

/-- and when it is cleared. -/
theorem unused_erase (s : Status) (f : Flag) {i : Nat} (hi : 5 ≤ i) :
    (s.erase f).byte.toBitVec.getLsbD i = s.byte.toBitVec.getLsbD i := by
  have := f.bit_lt
  rw [erase, UInt8.toBitVec_and, BitVec.getLsbD_and, UInt8.toBitVec_not, BitVec.getLsbD_not,
    Flag.mask_getLsbD, decide_eq_false (show ¬ i = f.bit by omega), Bool.not_false, Bool.and_true]
  by_cases h : i < 8
  · rw [decide_eq_true h, Bool.and_true]
  · rw [BitVec.getLsbD_of_ge _ _ (by omega), Bool.false_and]

theorem unused_unmark (s : Status) (c : Side) {i : Nat} (hi : 5 ≤ i) :
    (s.unmark c).byte.toBitVec.getLsbD i = s.byte.toBitVec.getLsbD i := by
  rw [unmark, unused_erase _ _ hi, unused_erase _ _ hi]

theorem unused_settled (s : Status) {i : Nat} (hi : 5 ≤ i) :
    s.settled.byte.toBitVec.getLsbD i = s.byte.toBitVec.getLsbD i := by
  rw [settled, withdraw, unused_erase _ _ hi, withdraw, unused_erase _ _ hi]

/-- **Settled bytes agree** if the flags other than coalescing ones do. -/
theorem settled_eq_settled_iff {s t : Status} : s.settled = t.settled ↔
    (∀ f, (∀ c, f ≠ .coalescing c) → s.has f = t.has f) ∧
      ∀ i, 5 ≤ i → s.byte.toBitVec.getLsbD i = t.byte.toBitVec.getLsbD i := by
  constructor
  · intro h
    refine ⟨fun f hf => ?_, fun i hi => ?_⟩
    · have := congrArg (fun u => u.has f) h
      simpa [hf .left, hf .right] using this
    · rw [← s.unused_settled hi, h, t.unused_settled hi]
  · rintro ⟨hflags, hunused⟩
    refine ext_has (fun f => ?_) fun i hi => ?_
    · cases f with
      | coalescing c => cases c <;> simp
      | block => simp [hflags .block nofun]
      | occupied c => simp [hflags (.occupied c) nofun]
    · rw [s.unused_settled hi, hunused i hi, t.unused_settled hi]

/-- What is done to coalescing flags makes no difference, -/
@[simp] theorem settled_announce (s : Status) (c : Side) : (s.announce c).settled = s.settled :=
  settled_eq_settled_iff.mpr
    ⟨fun f hf => by simp [hf c], fun _ hi => s.unused_insert (.coalescing c) hi⟩

@[simp] theorem settled_withdraw (s : Status) (c : Side) : (s.withdraw c).settled = s.settled :=
  settled_eq_settled_iff.mpr
    ⟨fun f hf => by simp [hf c], fun _ hi => s.unused_erase (.coalescing c) hi⟩

variable {s t : Status}

/-- and what is done to the others makes the same difference. -/
theorem settled_mark_congr (h : s.settled = t.settled) (c : Side) :
    (s.mark c).settled = (t.mark c).settled := by
  obtain ⟨hflags, hunused⟩ := settled_eq_settled_iff.mp h
  refine settled_eq_settled_iff.mpr ⟨fun f hf => by simp [hflags f hf], fun i hi => ?_⟩
  exact (s.unused_insert _ hi).trans ((hunused i hi).trans (t.unused_insert _ hi).symm)

theorem settled_unmark_congr (h : s.settled = t.settled) (c : Side) :
    (s.unmark c).settled = (t.unmark c).settled := by
  obtain ⟨hflags, hunused⟩ := settled_eq_settled_iff.mp h
  refine settled_eq_settled_iff.mpr ⟨fun f hf => by simp [hflags f hf], fun i hi => ?_⟩
  rw [unused_unmark _ _ hi, hunused i hi, unused_unmark _ _ hi]

end Status
end BuddyTree
