/-
# Where an allocator's own memory comes from

An allocator needs memory for its tree and for its leaf index, and asks a *source* for it once,
when it is brought up.  A source may refuse, and what it grants may hold anything.

Three sources are given: a heap that never runs out and grants zeroed memory, a boot arena whose
memory holds whatever was there, and a meter around another source, which keeps an account of the
requests and refuses some by itself.
-/
import BuddyTree.Arena

namespace BuddyTree

/-- So many bytes, at a multiple of `align`. -/
structure Request where
  bytes : Nat
  align : Nat
  deriving DecidableEq, Repr

/-- Memory for the asking side alone. -/
structure Grant where
  address : Nat
  /-- The byte at each offset from the address. -/
  contents : Nat → UInt8

/-- The same memory with its first `bytes` bytes set to zero. -/
def Grant.zeroed (g : Grant) (bytes : Nat) : Grant :=
  { g with contents := fun i => if i < bytes then 0 else g.contents i }

theorem Grant.zeroed_contents (g : Grant) {bytes i : Nat} (h : i < bytes) :
    (g.zeroed bytes).contents i = 0 := by
  simp [zeroed, h]

/-- How a supply of memory in state `σ` answers a request. -/
structure Source (σ : Type) where
  supply : σ → Request → Option Grant × σ

namespace Source

/-- Answer requests one after the other, each with the state of the supply afterwards. -/
def supplyAll {σ : Type} (source : Source σ) (s : σ) : List Request → List (Option Grant × σ)
  | [] => []
  | r :: rest =>
    let (grant, s) := source.supply s r
    (grant, s) :: source.supplyAll s rest

/-! ## 1. Heap and arena -/

/-- Zeroed memory without end.  The state is the first address not handed out yet. -/
def heap : Source Nat where
  supply next r :=
    let first := roundUp next r.align
    (some ⟨first, fun _ => 0⟩, first + r.bytes)

/-- Where a heap begins: the lowest addresses are never handed out. -/
def heapStart : Nat := 65536

/-- A boot arena whose memory holds `fill` everywhere. -/
def arena (fill : UInt8) : Source Arena where
  supply a r :=
    match a.take? r.bytes r.align with
    | some (first, a') => (some ⟨first, fun _ => fill⟩, a')
    | none => (none, a)

/-! ## 2. A metered source -/

/-- The account of a metered source. -/
structure Meter (σ : Type) where
  /-- The source behind the meter. -/
  inner : σ
  /-- The requests so far, each with the address that was granted. -/
  calls : List (Request × Option Nat)

/-- A meter without calls. -/
def Meter.start {σ : Type} (inner : σ) : Meter σ := ⟨inner, []⟩

/-- Keeps account of every request, and refuses some by itself: `refuses k r` says whether `r` is
refused as the `k`-th request, counted from 1. -/
def metered {σ : Type} (refuses : Nat → Request → Bool) (s : Source σ) : Source (Meter σ) where
  supply m r :=
    if refuses (m.calls.length + 1) r then (none, { m with calls := m.calls ++ [(r, none)] })
    else
      let (grant, inner) := s.supply m.inner r
      (grant, ⟨inner, m.calls ++ [(r, grant.map Grant.address)]⟩)

end Source
end BuddyTree
