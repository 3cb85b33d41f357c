/-
# What an interrupted allocation leaves behind

When the last call has returned, a check of the tree judges whether its flags agree.  It leaves
announcements out.  But an announcement never stands alone: as long as it is there, its side is
occupied for the release that is to come, and so the check fails exactly if one is left.

Most interruptions leave none.  But the undoing of a claim ends just below the block that refused
it, whatever becomes of that block.  If others give it back meanwhile, the release of a smaller block
below announces itself further up than that, and merges only up to a node whose other half still has
a mark of the claim: the rest it leaves to the undoing, which does not come so far.  What is
announced there stays until a later claim passes by and withdraws it.

The main facts: `regular_iff_quiet` (on sound metadata some node breaks a rule exactly if an
announcement is left), `check_eq_ok_iff` (so it does after an interrupted allocation, and none is
left unless a larger block was given back while a claim was being undone), and
`check_interrupted_alloc` (which can leave one).
-/
import BuddyTree.Proofs.Checking
import BuddyTree.Proofs.History
import BuddyTree.Proofs.Rollback

namespace BuddyTree

variable {d : Nat}

/-! ## 1. Sound metadata -/

namespace Metadata

variable {m : Metadata d} {top : Nat} {n : Node d}

/-- **At rest the tree shows what is recorded.** -/
theorem AtRest.depicts (h : m.AtRest top) : m.tree.Depicts top m.Records where
  level := fun _ hn => h.level hn
  apart := fun _ _ _ ha hb => h.apart ha hb
  busy := fun _ hn => by rw [h.fits.busy hn, Status.settled_busy]
  vacant := fun _ _ hn => h.fits.vacant hn
  occupied := fun n hl hn s => by
    rw [h.isOccupied_iff hn hl s, h.quiet n s]
    simp only [Bool.false_eq_true, or_false]
  above := fun _ hl => by rw [h.fits.above hl, Status.settled_clear]

/-- So every node follows the rules. -/
theorem AtRest.regular (h : m.AtRest top) (n : Node d) : m.tree.Regular top n :=
  h.depicts.regular h.fits.plain n

/-- **An announcement makes some node break a rule.**  Its side is occupied, so the child there is
not free unless it is at fault; and a child in which nothing is recorded is not free only for
another announcement, one level further down. -/
theorem Sound.quiet_of_regular (h : m.Sound top) (hok : ∀ n, m.tree.Regular top n) :
    m.tree.Quiet := by
  have key : ∀ k (a : Node d) s, a.level + k = d → (m.tree.get a).isCoalescing s = false := by
    intro k
    induction k with
    | zero =>
      intro a s ha
      refine (Bool.not_eq_true _).mp fun hc => ?_
      obtain ⟨-, -, hd, -⟩ := h.fits.of_isCoalescing hc
      omega
    | succ k ih =>
      intro a s ha
      refine (Bool.not_eq_true _).mp fun hc => ?_
      obtain ⟨hn, hl, hd, hbelow⟩ := h.fits.of_isCoalescing hc
      obtain ⟨c, hcid⟩ := Node.exists_child hd s
      have hlevel := Node.level_of_child hcid
      have hfree := (hok a).inner (h.fits.vacant hn) hl s c hcid
      rw [(h.isOccupied_iff hn hl s).mpr (.inr hc), eq_comm, Bool.not_eq_true'] at hfree
      rcases (h.isFree_eq_false_iff (by omega)).mp hfree with ⟨b, hb, hin⟩ | ⟨e, he⟩
      · exact hbelow ⟨b, hb, (Node.inHalf_iff_of_child hcid).mpr hin⟩
      · rw [ih c e (by omega)] at he
        cases he
  exact fun a s => key (d - a.level) a s (by have := a.level_le; omega)

/-- No announcement is left exactly if a block is recorded wherever one is claimed to be. -/
theorem Sound.quiet_iff_houses (h : m.Sound top) :
    m.tree.Quiet ↔ ∀ a s, ¬ m.Records a → top ≤ a.level → (m.tree.get a).isOccupied s = true →
      Houses m.Records a s := by
  constructor
  · intro hq a s ha hl hocc
    exact (h.fits.below_iff ha hl s).mpr ⟨hocc, hq a s⟩
  · intro hall a s
    refine (Bool.not_eq_true _).mp fun hc => ?_
    obtain ⟨ha, hl, -, hbelow⟩ := h.fits.of_isCoalescing hc
    exact hbelow (hall a s ha hl ((h.isOccupied_iff ha hl s).mpr (.inr hc)))

/-- **Some node breaks a rule exactly if an announcement is left.** -/
theorem Sound.regular_iff_quiet (h : m.Sound top) : (∀ n, m.tree.Regular top n) ↔ m.tree.Quiet :=
  ⟨h.quiet_of_regular, fun hq => AtRest.regular ⟨h, hq⟩⟩

end Metadata

/-! ## 2. After an interrupted allocation -/

/-- **What is left.**  After an allocation that others came in between, from any state that calls
without interference lead to, every node above a recorded block is counted as occupied.  The check
succeeds exactly if no other side is, and exactly if no announcement is left; and none is left
unless a block larger than the one asked for was given back while a claim was being undone. -/
theorem check_eq_ok_iff {base size : Nat} {config : Config} {r : Region}
    (h : Region.of base size config = .ok r) (cs : List Call) (bytes : Nat)
    (hooks : List (Hook Call)) :
    let m := (r.interrupted (.alloc bytes) hooks (r.calls cs (.blank _)).2).2.2
    (∀ (a b : Node r.depth) (s : Side), m.Records b → b.InHalf a s →
        r.geometry.baseLevel ≤ a.level → (m.tree.get a).isFree = false) ∧
      ((⟨r, m⟩ : Allocator).check = .ok () ↔ ∀ (a : Node r.depth) (s : Side), ¬ m.Records a →
        r.geometry.baseLevel ≤ a.level → (m.tree.get a).isOccupied s = true →
          ∃ b, m.Records b ∧ b.InHalf a s) ∧
      ((⟨r, m⟩ : Allocator).check = .ok () ↔ ∀ n s, (m.tree.get n).isCoalescing s = false) ∧
      ((∀ order, r.geometry.orderFor? bytes = some order →
          ∀ p ∈ (r.filmed (.alloc bytes) hooks (r.calls cs (.blank _)).2).2.1.done,
            ¬ p.2.Uncovers hooks order p.1) →
        (⟨r, m⟩ : Allocator).check = .ok ()) := by
  intro m
  have hr := Region.managed_of h
  have hm : m.Sound r.geometry.baseLevel := by
    have := (steady_filmed hr (mirrors_calls hr cs).toSound (.alloc bytes) hooks).1
    simp only [m, Region.interrupted_eq_filmed]
    exact this
  have hcheck : (⟨r, m⟩ : Allocator).check = .ok () ↔ m.tree.Quiet :=
    check_eq_ok_iff_regular.trans hm.regular_iff_quiet
  refine ⟨fun a b s hb hin hl => ?_, hcheck.trans hm.quiet_iff_houses, hcheck, fun hsafe => ?_⟩
  · exact (hm.isFree_eq_false_iff hl).mpr (.inl ⟨b, hb, hin.within⟩)
  · have hrest := atRest_filmed hr (mirrors_calls hr cs).toAtRest hooks hsafe
    refine hcheck.mpr ?_
    simp only [m, Region.interrupted_eq_filmed]
    exact hrest.quiet

/-- A claim of the first granule that the large block above it refuses.  Others take blocks elsewhere
while it is being undone, and give back the large one only afterwards. -/
theorem check_eq_ok_iff_of_conflict :
    let r : Region := ⟨4096, ⟨1, 5, 0⟩⟩
    let hooks : List (Hook Call) :=
      [⟨.coalesced, 1, [.alloc 4, .alloc 2]⟩, ⟨.conflict, 1, [.free 4096, .alloc 8]⟩]
    let m := (r.interrupted (.alloc 1) hooks (r.calls [.alloc 16] (.blank _)).2).2.2
    Region.of 4096 32 ⟨1, 5⟩ = .ok r ∧ (⟨r, m⟩ : Allocator).check = .ok () := by
  intro r hooks m
  have h : Region.of 4096 32 ⟨1, 5⟩ = .ok r := rfl
  refine ⟨h, (check_eq_ok_iff h [.alloc 16] 1 hooks).2.2.2 fun _ _ _ _ => ?_⟩
  exact Shot.not_uncovers (by simp [hooks])

/-- **A flag that is left.**  While the claim of the first granule, which the large block above it
refused, is being undone, that block is given back, and a smaller one below it is taken and given
back.  The smaller one is announced up to the root, but merges only at node 4, whose other half still
has the mark of the claim; and at node 4 the undoing of the claim ends.  So nobody merges at node 2:
the check finds its left half occupied, and nothing is there. -/
theorem check_interrupted_alloc :
    let r : Region := ⟨4096, ⟨1, 5, 0⟩⟩
    let hooks : List (Hook Call) := [⟨.coalesced, 1, [.free 4096, .alloc 4, .free 4100]⟩]
    let m := (r.interrupted (.alloc 1) hooks (r.calls [.alloc 16] (.blank _)).2).2.2
    Region.of 4096 32 ⟨1, 5⟩ = .ok r ∧
      (⟨r, m⟩ : Allocator).check = .error ⟨2, ⟨0x0a⟩, .flagDisagrees⟩ := by
  intro r hooks m
  have haudit : m.tree.audit r.geometry.baseLevel =
      some (⟨2, by decide, by decide⟩, .flagDisagrees) := by decide +kernel
  have hget : m.tree.get ⟨2, by decide, by decide⟩ = ⟨0x0a⟩ := by decide +kernel
  refine ⟨rfl, ?_⟩
  unfold Allocator.check
  dsimp only
  rw [haudit]
  exact congrArg (fun s => Except.error (Violation.mk 2 s .flagDisagrees)) hget

end BuddyTree
