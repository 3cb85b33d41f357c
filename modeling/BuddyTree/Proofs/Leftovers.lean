/-
# Announcements that stay

A release that met an allocation can leave announcements behind, above a block that is still live.
The next release on that path need not clear them.  It merges up to the first ancestor whose other
half is in use, and what stands above that one it does not see; if a release is announced in that
other half, its own first climb even goes on, and announces it above once more.

So an announcement for the side that a block is given back from stays, or is made, exactly in the
ancestors above which the second climb has stopped and to which the first one has gone or an earlier
one has been.

The main facts: `isCoalescing_free` (what is announced after a release that nobody interferes with),
and `free_leaves_announcement` (an announcement that the next release on its path leaves).
-/
import BuddyTree.Proofs.Midway
import BuddyTree.Proofs.Orderly

namespace BuddyTree

section Leftovers

variable {r : Region} {m : Metadata r.depth} {n a : Node r.depth} {c : Side}

/-- Nothing is announced, so no other half is occupied or all of them are about to merge. -/
theorem Tree.Quiet.mergesTo_iff {d l : Nat} {t : Tree d} {x : Node d} (h : t.Quiet) :
    t.MergesTo x l ↔ t.AnnouncesTo x l := by
  refine ⟨MergesTo.announcesTo, fun hann q e hq hl => (Bool.not_eq_true _).mp fun hocc => ?_⟩
  have hc := hann q e hq hl hocc
  rw [h q e.other] at hc
  cases hc

/-- The tree shows what is recorded. -/
theorem Region.Coherent.depicts (h : r.Coherent m) :
    m.tree.Depicts r.geometry.baseLevel m.Records := by
  have hrec : m.Records = fun n => (m.tree.get n).has .block = true :=
    funext fun n => propext (h.records n)
  rw [hrec]
  exact h.faultless.depicts

/-- A release of a recorded block merges as far as it is alone in its half. -/
theorem Region.Coherent.mergesTo_iff (h : r.Coherent m) (hn : m.Records n) (ha : n.InHalf a c)
    (hl : r.geometry.baseLevel ≤ a.level) :
    m.tree.MergesTo n a.level ↔ ¬ ∃ b, (m.Records b ∧ b ≠ n) ∧ b.InHalf a c := by
  obtain ⟨ref, href, hover⟩ := h.exists_atRest
  have hnref := hover.records_iff.mp hn
  rw [hover.tree.mergesTo_iff, href.quiet.mergesTo_iff,
    href.toSound.announcesTo_iff hnref ha hl, Houses]
  simp only [hover.records_iff]

/-- It is announced as far as every other half with a recorded block is announced. -/
theorem Region.Coherent.announcesTo_iff (h : r.Coherent m) (hn : m.Records n)
    (hl : r.geometry.baseLevel ≤ a.level) :
    m.tree.AnnouncesTo n a.level ↔ ∀ q e, n.InHalf q e → a.level < q.level →
      (∃ b, m.Records b ∧ b.InHalf q e.other) → (m.tree.get q).isCoalescing e.other = true := by
  refine forall₄_congr fun q e hq hlq => ?_
  rw [h.depicts.occupied q (by omega) (fun hrec => h.depicts.apart q n e hrec hn hq)]

/-- **What is announced after a release.**  On its way, the flag for its side stands exactly in the
ancestors where another block keeps that side in use, if it stood there before or if, below, each
other half in use is announced.  No other coalescing flag changes. -/
theorem isCoalescing_free {base size : Nat} {config : Config}
    (hof : Region.of base size config = .ok r) (h : r.Coherent m) (hn : m.Records n) :
    let after := r.call (.free (r.addressOf n)) m
    after.1 = .freed (.ok ()) ∧
      (∀ a c, n.InHalf a c → r.geometry.baseLevel ≤ a.level →
        ((after.2.tree.get a).isCoalescing c = true ↔
          (∃ b, (m.Records b ∧ b ≠ n) ∧ b.InHalf a c) ∧
            ((m.tree.get a).isCoalescing c = true ∨
              ∀ q e, n.InHalf q e → a.level < q.level → (∃ b, m.Records b ∧ b.InHalf q e.other) →
                (m.tree.get q).isCoalescing e.other = true))) ∧
      ∀ a c, a ≠ n → ¬ (n.InHalf a c ∧ r.geometry.baseLevel ≤ a.level) →
        ((after.2.tree.get a).isCoalescing c = true ↔ (m.tree.get a).isCoalescing c = true) := by
  intro after
  obtain ⟨ref, href, hover⟩ := h.exists_atRest
  have hnref := hover.records_iff.mp hn
  have hcall : after = (.freed (.ok ()), m.giveBack n r.geometry.baseLevel) :=
    hover.call_free (Region.managed_of hof) href hnref
  have hflag : ∀ a c, (after.2.tree.get a).isCoalescing c = true ↔
      ((n ≠ a ∧ (m.tree.get a).isCoalescing c = true) ∧
        ¬ (Held n r.geometry.baseLevel a c ∧ m.tree.MergesTo n a.level)) ∨
      (Held n r.geometry.baseLevel a c ∧ ¬ m.tree.MergesTo n a.level ∧
        m.tree.AnnouncesTo n a.level) := fun a c => by
    rw [hcall, Metadata.tree_giveBack]
    exact Tree.isCoalescing_retire (href.level hnref)
  refine ⟨by rw [hcall], fun a c ha hl => ?_, fun a c hne hoff => ?_⟩
  · have hheld : Held n r.geometry.baseLevel a c := ⟨ha, hl⟩
    have hne : n ≠ a := fun he => Node.not_inHalf_self a c (he ▸ ha)
    rw [hflag, ← h.announcesTo_iff hn hl, h.mergesTo_iff hn ha hl, Classical.not_not]
    constructor
    · rintro (⟨⟨-, hc⟩, hnot⟩ | ⟨-, hb, hann⟩)
      · exact ⟨Classical.not_not.mp fun hno => hnot ⟨hheld, hno⟩, .inl hc⟩
      · exact ⟨hb, .inr hann⟩
    · rintro ⟨hb, hc | hann⟩
      · exact .inl ⟨⟨hne, hc⟩, fun hno => hno.2 hb⟩
      · exact .inr ⟨hheld, hb, hann⟩
  · rw [hflag]
    constructor
    · rintro (⟨⟨-, hc⟩, -⟩ | ⟨hheld, -⟩)
      · exact hc
      · exact absurd hheld hoff
    · exact fun hc => .inl ⟨⟨hne.symm, hc⟩, fun hheld => hoff hheld.1⟩

/-- A release of the first granule passes a half in use that is announced, and announces at the root
what nobody will merge. -/
theorem isCoalescing_free_of_announced :
    let r : Region := ⟨4096, ⟨1, 3, 0⟩⟩
    let root : Node r.depth := ⟨1, by decide, by decide⟩
    let lower : Node r.depth := ⟨2, by decide, by decide⟩
    let first : Node r.depth := ⟨8, by decide, by decide⟩
    let rested := (r.calls [.alloc 1, .alloc 1, .alloc 1, .free 4097] (.blank _)).2
    let m := rested.mapTree (·.announce [⟨lower, .right⟩])
    Region.of 4096 8 ⟨1, 3⟩ = .ok r ∧ r.Coherent m ∧ m.Records first ∧
      (m.tree.get root).isCoalescing .left = false ∧
      (r.call (.free (r.addressOf first)) m).1 = .freed (.ok ()) ∧
      ((r.call (.free (r.addressOf first)) m).2.tree.get root).isCoalescing .left = true := by
  intro r root lower first rested m
  have hof : Region.of 4096 8 ⟨1, 3⟩ = .ok r := rfl
  have hr := Region.managed_of hof
  have h : r.Coherent m := (orderly_of_mirrors hr (mirrors_calls hr _)
    ((Metadata.Overlays.refl rested).announce [⟨lower, .right⟩])).coherent
  have hn : m.Records first := by
    unfold Metadata.Records
    decide +kernel
  have hfree := isCoalescing_free hof h hn
  exact ⟨hof, h, hn, by decide +kernel, hfree.1, by decide +kernel⟩

/-- **An announcement that the next release on its path leaves.**  The second and the third granule
are live, and an earlier release is still announced at the root.  The release of the second one
stops one level below, where the third is in the other half, and the root keeps its flag. -/
theorem free_leaves_announcement :
    let r : Region := ⟨4096, ⟨1, 3, 0⟩⟩
    let root : Node r.depth := ⟨1, by decide, by decide⟩
    let second : Node r.depth := ⟨9, by decide, by decide⟩
    let rested := (r.calls [.alloc 1, .alloc 1, .alloc 1, .free 4096] (.blank _)).2
    let m := rested.mapTree (·.announce [⟨root, .left⟩])
    Region.of 4096 8 ⟨1, 3⟩ = .ok r ∧ r.Coherent m ∧ m.tree.Beside ∧
      m.Records second ∧ r.addressOf second = 4097 ∧ second.InHalf root .left ∧
      r.geometry.baseLevel ≤ root.level ∧
      ((r.call (.free 4097) m).2.tree.get root).isCoalescing .left = true := by
  intro r root second rested m
  have hof : Region.of 4096 8 ⟨1, 3⟩ = .ok r := rfl
  have hr := Region.managed_of hof
  have hrest := mirrors_calls hr [.alloc 1, .alloc 1, .alloc 1, .free 4096]
  have h : r.Coherent m := (orderly_of_mirrors hr hrest
    ((Metadata.Overlays.refl rested).announce [⟨root, .left⟩])).coherent
  have hn : m.Records second := by
    unfold Metadata.Records
    decide +kernel
  have hbeside : m.tree.Beside := by
    intro a s hc
    change ((rested.tree.announce [⟨root, .left⟩]).get a).isCoalescing s = true at hc
    change ((rested.tree.announce [⟨root, .left⟩]).get a).isOccupied s = true
    rw [((Tree.SameUse.refl rested.tree).announce _).isOccupied]
    by_cases ha : root = a
    · subst ha
      rw [Tree.get_announce_head (by simp), Status.isCoalescing_announce, hrest.quiet,
        Bool.false_or, decide_eq_true_iff] at hc
      subst hc
      decide +kernel
    · rw [Tree.get_announce_of_not_mem (by simpa using ha), hrest.quiet] at hc
      cases hc
  exact ⟨hof, h, hbeside, hn, by decide, ⟨2, by decide⟩, by decide, by decide +kernel⟩

end Leftovers

end BuddyTree
