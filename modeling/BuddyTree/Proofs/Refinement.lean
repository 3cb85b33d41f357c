/-
# An allocator is a set of live blocks

To a caller with nobody else around, an allocator behaves like the rules in `Blocks`, which know
of no tree: an allocation takes the leftmost vacant block of the least sufficient order, a release
takes a block away, and the counters count what is live.

Metadata that mirrors live blocks answers as the rules do, and mirrors what the rules leave.

The main facts: `Mirrors.firstFit?_eq` (a search finds what the rules find), `Mirrors.call` (one
call follows the rules), and `Mirrors.calls` (so does every history).
-/
import BuddyTree.Proofs.Mirror

namespace BuddyTree

/-! ## 1. The least order and the first fit -/

namespace Blocks

/-- The rules and the shape of the region agree on the order for a size. -/
theorem leastOrder?_eq_orderFor? {g : Geometry} (hmin : 0 < g.minSize) (size : Nat) :
    leastOrder? g size = g.orderFor? size := by
  have hpos : ∀ k, 0 < 2 ^ k * g.minSize := fun k => Nat.mul_pos (Nat.two_pow_pos k) hmin
  have hmax : ∀ k, max size 1 ≤ 2 ^ k * g.minSize ↔ size ≤ 2 ^ k * g.minSize := by
    intro k
    have := hpos k
    omega
  cases ho : g.orderFor? size with
  | none =>
    have hlarge : g.maxSize < size := by
      unfold Geometry.orderFor? at ho
      split at ho
      · assumption
      · cases ho
    refine List.find?_eq_none.mpr fun k hk => ?_
    have hle : 2 ^ k * g.minSize ≤ g.maxSize :=
      Nat.mul_le_mul_right _ (Nat.pow_le_pow_right Nat.two_pos
        (Nat.le_of_lt_succ (List.mem_range.mp hk)))
    simp only [decide_eq_true_eq, hmax]
    omega
  | some o =>
    obtain ⟨-, hleast⟩ := (Geometry.orderFor?_eq_some_iff hmin).mp ho
    have hle := Geometry.orderFor?_le hmin ho
    refine List.find?_range_eq_some.mpr ⟨?_, List.mem_range.mpr (by omega), fun k hk => ?_⟩
    · simpa only [decide_eq_true_eq, hmax] using (hleast o).mp (Nat.le_refl o)
    · have : ¬ o ≤ k := by omega
      rw [hleast] at this
      simp only [hmax, this, decide_false, Bool.not_false]

end Blocks

namespace Metadata

variable {d : Nat} {m : Metadata d} {top : Nat} {live : List Block}

theorem Mirrors.vacant_iff (h : m.Mirrors top live) (x : Node d) :
    m.Vacant x ↔ Blocks.isVacant live x.block = true := by
  rw [Blocks.isVacant_iff]
  constructor
  · intro hv b hb
    obtain ⟨n, rfl⟩ := h.node b hb
    exact hv n ((h.mem n).mp hb)
  · exact fun hv n hn => hv n.block ((h.mem n).mpr hn)

/-- **First fit.**  What a search of a level finds is the leftmost vacant block of its order. -/
theorem Mirrors.firstFit?_eq (h : m.Mirrors top live) {o : Nat} (ho : o ≤ d)
    {result : Option (Node d) × World d Unit}
    (hfind : FindsFirst m top (2 ^ (d - o)) (2 ^ (d - o + 1)) result) :
    Blocks.firstFit? d o live = result.1.map Node.block := by
  have hpow : 2 ^ (d - o + 1) = 2 * 2 ^ (d - o) := Nat.pow_succ'
  obtain ⟨_ | n, w⟩ := result
  · refine Blocks.firstFit?_eq_none_iff.mpr fun i hi => ?_
    obtain ⟨x, hid, hx⟩ := Node.exists_nth ho hi
    have hv := hfind.2 x (by omega) (by omega)
    rw [h.vacant_iff, Blocks.isVacant_iff, hx] at hv
    simpa using hv
  · obtain ⟨-, h1, h2, hv, hfirst⟩ := hfind
    have hlevel : n.level = d - o := (NodeId.level_eq_iff n.pos).mpr ⟨h1, h2⟩
    refine Blocks.firstFit?_eq_some_iff.mpr ⟨n.id - 2 ^ (d - o), by omega,
      Node.block_eq_nth ho hlevel, (h.vacant_iff n).mp hv, fun j hj => ?_⟩
    obtain ⟨x, hid, hx⟩ := Node.exists_nth ho (show j < 2 ^ (d - o) by omega)
    have hnv := hfirst x (by omega) (by omega)
    rwa [h.vacant_iff, hx, Bool.not_eq_true] at hnv

/-- The entry of a granule leads to the live block that starts there. -/
theorem Mirrors.find?_eq (h : m.Mirrors top live) (leaf : Fin (2 ^ d)) :
    live.find? (fun b => b.first == leaf.val) =
      (Node.ofId? d (m.entry leaf).toNat).map Node.block := by
  have hleaf : ∀ n : Node d, n.block ∈ live → n.block.first = leaf.val →
      Node.ofId? d (m.entry leaf).toNat = some n := by
    intro n hn hfirst
    have hleaf : n.firstLeaf = leaf := Fin.ext hfirst
    have hid : (m.entry leaf).toNat = n.id := by rw [← hleaf]; exact (h.mem n).mp hn
    rw [hid, Node.ofId?, dif_pos ⟨n.pos, n.lt⟩]
  cases hf : live.find? (fun b => b.first == leaf.val) with
  | some b =>
    obtain ⟨n, rfl⟩ := h.node b (List.mem_of_find?_eq_some hf)
    rw [hleaf n (List.mem_of_find?_eq_some hf) (by simpa using List.find?_some hf)]
    rfl
  | none =>
    cases hn : Node.ofId? d (m.entry leaf).toNat with
    | none => rfl
    | some n =>
      obtain ⟨hrec, hfirst⟩ := h.records_of_entry hn
      have := List.find?_eq_none.mp hf n.block ((h.mem n).mpr hrec)
      exact absurd (congrArg Fin.val hfirst) (by simpa [Node.block] using this)

/-- **Giving a block back.** -/
theorem Mirrors.release {n : Node d} (h : m.Mirrors top live) (hn : m.Records n) :
    let result := release (silent d) n top ⟨m.withdraw n.firstLeaf, ()⟩
    result.1 = true ∧ (result.2.store.discharge n).Mirrors top (live.erase n.block) ∧
      (result.2.store.discharge n).released = m.released + 1 := by
  obtain ⟨htrue, hrest⟩ := AtRest.release (h.toSound.withdraw hn) h.quiet
  have hbooks := books_release letsPass_silent n top ⟨m.withdraw n.firstLeaf, ()⟩
  exact ⟨htrue, h.leave hn hrest hbooks, congrArg (· + 1) hbooks.released⟩

end Metadata

/-! ## 2. One call -/

/-- Did the call give a block back? -/
def Call.gaveBack : Call → Reply → Bool
  | .free address, .freed (.ok ()) => address != 0
  | _, _ => false

section OneCall

variable {r : Region} {m : Metadata r.depth} {live : List Block}

/-- The work gives the answer that the rules give, and mirrors the blocks that they leave. -/
structure Agrees {α : Type} (r : Region) (result : α × World r.depth Unit)
    (expected : α × List Block) : Prop where
  answer : result.1 = expected.1
  mirrors : result.2.store.Mirrors r.geometry.baseLevel expected.2

/-- **An allocation follows the rules.** -/
theorem agrees_alloc (hr : r.Managed) (h : m.Mirrors r.geometry.baseLevel live) (size : Nat) :
    Agrees r (r.alloc (silent _) size ⟨m, ()⟩) (Blocks.alloc r size live) ∧
      (r.alloc (silent _) size ⟨m, ()⟩).2.store.released = m.released := by
  unfold Region.alloc Blocks.alloc
  rw [Blocks.leastOrder?_eq_orderFor? hr.minSize_pos]
  cases hord : r.geometry.orderFor? size with
  | none => exact ⟨⟨rfl, h⟩, rfl⟩
  | some o =>
    have hle := Geometry.orderFor?_le hr.minSize_pos hord
    have hfind := h.toAtRest.search (hr.baseLevel_le_sub hle)
    have hfit := h.firstFit?_eq (Nat.le_trans hle (Nat.sub_le _ _)) hfind
    dsimp only
    rw [hfit]
    generalize search (silent _) r.geometry.baseLevel o ⟨m, ()⟩ = result at hfind ⊢
    obtain ⟨_ | n, w⟩ := result
    · have hsame : w.store = m := hfind.1
      exact ⟨⟨rfl, hsame ▸ h⟩, by rw [hsame]⟩
    · obtain ⟨⟨hheld, hq, hb⟩, -⟩ := hfind
      exact ⟨⟨rfl, h.enter hr.depth_le hheld hq hb⟩, hb.released⟩

theorem agrees_allocLayout (hr : r.Managed) (h : m.Mirrors r.geometry.baseLevel live)
    (layout : Layout) :
    Agrees r (r.allocLayout (silent _) layout ⟨m, ()⟩) (Blocks.allocLayout r layout live) ∧
      (r.allocLayout (silent _) layout ⟨m, ()⟩).2.store.released = m.released := by
  unfold Region.allocLayout Blocks.allocLayout
  have hiff : (layout.align > r.geometry.minSize ∧ r.base % layout.align ≠ 0) ↔
      (r.geometry.minSize < layout.align ∧ ¬ layout.align ∣ r.base) := by
    rw [Nat.dvd_iff_mod_eq_zero]
  by_cases hal : r.geometry.minSize < layout.align ∧ ¬ layout.align ∣ r.base
  · rw [if_pos (hiff.mpr hal), if_pos hal]
    exact ⟨⟨rfl, h⟩, rfl⟩
  · rw [if_neg (fun hc => hal (hiff.mp hc)), if_neg hal]
    exact agrees_alloc hr h _

/-- **A release follows the rules,** and is counted if it gave a block back. -/
theorem agrees_free (h : m.Mirrors r.geometry.baseLevel live) (address : Nat) :
    Agrees r (r.free (silent _) address ⟨m, ()⟩) (Blocks.free r address live) ∧
      (r.free (silent _) address ⟨m, ()⟩).2.store.released =
        if (Call.free address).gaveBack (.freed (Blocks.free r address live).1) then
          m.released + 1
        else m.released := by
  unfold Region.free Blocks.free
  dsimp only
  by_cases hzero : address = 0
  · subst hzero
    exact ⟨⟨rfl, h⟩, rfl⟩
  · rw [if_neg hzero, if_neg hzero]
    by_cases hin : r.base ≤ address ∧ address - r.base < r.geometry.totalMemory
    · rw [dif_pos hin, if_neg (show ¬ ¬ (r.base ≤ address ∧
        address < r.base + r.geometry.totalMemory) by omega)]
      by_cases hal : (address - r.base) % r.geometry.minSize = 0
      · rw [if_neg (fun hc => hc hal), if_neg (fun hc => hc (Nat.dvd_of_mod_eq_zero hal))]
        have hfind := h.find?_eq (r.leafAt address hin.2)
        rw [show live.find? (fun b => b.first == (address - r.base) / r.geometry.minSize) =
          live.find? (fun b => b.first == (r.leafAt address hin.2).val) from rfl, hfind]
        cases hn : Node.ofId? r.depth (m.entry (r.leafAt address hin.2)).toNat with
        | none => exact ⟨⟨rfl, h⟩, rfl⟩
        | some n =>
          obtain ⟨hrec, hleaf⟩ := h.records_of_entry hn
          have hmap : (⟨m, ()⟩ : World r.depth Unit).mapStore (.withdraw n.firstLeaf) =
              ⟨m.withdraw n.firstLeaf, ()⟩ := rfl
          obtain ⟨htrue, hleft, hcount⟩ := h.release hrec
          dsimp only [Option.map_some]
          rw [← hleaf, hmap]
          generalize release (silent _) n r.geometry.baseLevel ⟨m.withdraw n.firstLeaf, ()⟩ =
            result at htrue hleft hcount ⊢
          obtain ⟨ok, w⟩ := result
          obtain rfl : ok = true := htrue
          have hgave : (Call.free address).gaveBack (.freed (.ok ())) = true := by
            simpa [Call.gaveBack] using hzero
          refine ⟨⟨rfl, hleft⟩, ?_⟩
          exact hcount.trans (if_pos hgave).symm
      · rw [if_pos hal, if_pos (fun hd => hal (Nat.mod_eq_zero_of_dvd hd))]
        exact ⟨⟨rfl, h⟩, rfl⟩
    · rw [dif_neg hin, if_pos (show ¬ (r.base ≤ address ∧
        address < r.base + r.geometry.totalMemory) by omega)]
      exact ⟨⟨rfl, h⟩, rfl⟩

/-- **One call.**  It gives the reply that the rules give, and mirrors the blocks that they
leave; a release is counted if it gave a block back. -/
theorem Metadata.Mirrors.call (hr : r.Managed) (h : m.Mirrors r.geometry.baseLevel live)
    (c : Call) :
    (r.call c m).1 = (Blocks.call r c live).1 ∧
      (r.call c m).2.Mirrors r.geometry.baseLevel (Blocks.call r c live).2 ∧
      (r.call c m).2.released =
        m.released + .ofNat (if c.gaveBack (Blocks.call r c live).1 then 1 else 0) := by
  cases c with
  | alloc size =>
    obtain ⟨hag, hrel⟩ := agrees_alloc hr h size
    exact ⟨congrArg Reply.allocated hag.answer, hag.mirrors, hrel.trans (UInt64.add_zero _).symm⟩
  | allocLayout layout =>
    obtain ⟨hag, hrel⟩ := agrees_allocLayout hr h layout
    exact ⟨congrArg Reply.allocated hag.answer, hag.mirrors, hrel.trans (UInt64.add_zero _).symm⟩
  | free address =>
    obtain ⟨hag, hrel⟩ := agrees_free h address
    refine ⟨congrArg Reply.freed hag.answer, hag.mirrors, hrel.trans ?_⟩
    show _ = m.released + .ofNat (if (Call.free address).gaveBack
      (.freed (Blocks.free r address live).1) then 1 else 0)
    split
    · rfl
    · exact (UInt64.add_zero _).symm

end OneCall

/-! ## 3. A history -/

/-- How many of these calls gave a block back. -/
def Blocks.releases (cs : List Call) (replies : List Reply) : Nat :=
  (cs.zip replies).countP fun p => p.1.gaveBack p.2

/-- **A history.** -/
theorem Metadata.Mirrors.calls {r : Region} {m : Metadata r.depth} {live : List Block}
    (hr : r.Managed) (h : m.Mirrors r.geometry.baseLevel live) (cs : List Call) :
    (r.calls cs m).1 = (Blocks.calls r cs live).1 ∧
      (r.calls cs m).2.Mirrors r.geometry.baseLevel (Blocks.calls r cs live).2 ∧
      (r.calls cs m).2.released =
        m.released + .ofNat (Blocks.releases cs (Blocks.calls r cs live).1) := by
  induction cs generalizing m live with
  | nil => exact ⟨rfl, h, (UInt64.add_zero _).symm⟩
  | cons c rest ih =>
    obtain ⟨hreply, hmirrors, hrel⟩ := h.call hr c
    obtain ⟨hreplies, hmirrors', hrel'⟩ := ih hmirrors
    refine ⟨?_, hmirrors', ?_⟩
    · simp only [Region.calls, Blocks.calls, hreply, hreplies]
    · have hcount : Blocks.releases (c :: rest) (Blocks.calls r (c :: rest) live).1 =
          (if c.gaveBack (Blocks.call r c live).1 then 1 else 0) +
            Blocks.releases rest (Blocks.calls r rest (Blocks.call r c live).2).1 := by
        simp only [Blocks.releases, Blocks.calls, List.zip_cons_cons, List.countP_cons]
        exact Nat.add_comm _ _
      rw [hcount, UInt64.ofNat_add, ← UInt64.add_assoc, ← hrel]
      exact hrel'

end BuddyTree
