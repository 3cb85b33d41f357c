/-
# Orderly metadata

Metadata is *orderly* if a check of its tree finds nothing, the index records exactly the nodes with
a block flag, and the counters count them.  Coalescing flags may stand anywhere: the check leaves
them out.  So orderly metadata is what overlays metadata at rest, and every call leads from there to
orderly metadata again.

The main facts: `Coherent.exists_atRest` (whatever the counters say, such metadata overlays metadata
at rest), `Orderly.exists_mirrors` and `orderly_of_mirrors` (orderly metadata overlays metadata that
mirrors live blocks, and only such metadata does), `careful_of_orderly` (what every call promises),
and `calls_settled` (if each coalescing flag stands beside its occupied flag, no caller can tell
that it is there).
-/
import BuddyTree.Proofs.Overlay
import BuddyTree.Proofs.Quiescence

namespace BuddyTree

variable {d : Nat}

/-! ## 1. What an index holds -/

namespace Metadata

variable {m : Metadata d} {top : Nat} {live : List Block}

/-- What is live is what the index has. -/
theorem Mirrors.indexed (h : m.Mirrors top live) : m.Mirrors top m.indexed := by
  refine h.congr_live h.nodup_indexed fun b => ?_
  rw [h.mem_indexed_iff]
  constructor
  · rintro ⟨n, hn, rfl⟩
    exact (h.mem n).mpr hn
  · intro hb
    obtain ⟨n, rfl⟩ := h.node b hb
    exact ⟨n, (h.mem n).mp hb, rfl⟩

end Metadata

/-! ## 2. Trees without coalescing flags -/

namespace Tree

/-- Trees that differ in coalescing flags follow the same rules. -/
theorem SameUse.regular_iff {t u : Tree d} (h : t.SameUse u) {top : Nat} {n : Node d} :
    t.Regular top n ↔ u.Regular top n := by
  have hsettled : ∀ a, (t.get a).settled = (u.get a).settled := h
  simp only [← fault?_eq_none_iff, fault?, childFault?, hsettled]

/-- The tree without coalescing flags, and with nothing in the unused slot. -/
def swept (t : Tree d) : Tree d :=
  ⟨t.settled.slots.set 0 .clear (Nat.two_pow_pos _)⟩

@[simp] theorem get_swept (t : Tree d) (n : Node d) : t.swept.get n = (t.get n).settled := by
  have := n.pos
  rw [← get_settled]
  simp only [swept, get, Vector.getElem_set]
  exact if_neg (by omega)

/-- **A faultless tree fits its blocks** when it is swept. -/
theorem Faultless.fits {t : Tree d} {top : Nat} (h : t.Faultless top) :
    t.swept.Fits top (fun n => (t.get n).has .block = true)
      (Houses fun n => (t.get n).has .block = true) where
  busy := fun hn => (get_swept t _).trans ((h.regular _).busy hn)
  vacant := fun hn => by simpa using hn
  occupied := fun hn hl s => by
    rw [get_swept, Status.isOccupied_settled, Status.isCoalescing_settled,
      h.isOccupied_iff ((Bool.not_eq_true _).mp hn) hl]
    simp only [Bool.false_eq_true, or_false]
  settled := fun _ => by simp
  above := fun hl => (get_swept t _).trans ((h.regular _).above hl)
  leaf := fun hn hl => (get_swept t _).trans ((h.regular _).leaf ((Bool.not_eq_true _).mp hn) hl)
  plain := fun n => by
    rw [get_swept]
    exact (h.plain n).settled
  spare := by simp [swept]

end Tree

/-! ## 3. Orderly metadata -/

/-- A tree in which nothing is wrong and an index that agrees with it, whatever is announced, and
whatever the counters say. -/
structure Region.Coherent (r : Region) (m : Metadata r.depth) : Prop where
  /-- No byte has an unused bit, -/
  plain : ∀ n, (m.tree.get n).Plain
  /-- and a check finds nothing. -/
  check : (⟨r, m⟩ : Allocator).check = .ok ()
  /-- The index has exactly the nodes with a block flag, at their first granules, -/
  records : ∀ n, m.Records n ↔ (m.tree.get n).has .block = true
  /-- and nothing else. -/
  entry : ∀ leaf, m.entry leaf ≠ 0 → ∃ n, m.Records n ∧ n.firstLeaf = leaf

/-- Metadata in which nothing is wrong, whatever is announced. -/
structure Region.Orderly (r : Region) (m : Metadata r.depth) : Prop where
  /-- No byte has an unused bit, -/
  plain : ∀ n, (m.tree.get n).Plain
  /-- and a check finds nothing. -/
  check : (⟨r, m⟩ : Allocator).check = .ok ()
  /-- The index has exactly the nodes with a block flag, at their first granules, -/
  records : ∀ n, m.Records n ↔ (m.tree.get n).has .block = true
  /-- and nothing else. -/
  entry : ∀ leaf, m.entry leaf ≠ 0 → ∃ n, m.Records n ∧ n.firstLeaf = leaf
  /-- The counters count what the index has. -/
  count : ∀ o : Fin (r.depth + 1), (m.count o).toNat = m.indexed.countP fun b => b.order == o.val

section Orderly

variable {r : Region} {m ref : Metadata r.depth} {live : List Block}

/-- Every node follows the rules. -/
theorem Region.Coherent.faultless (h : r.Coherent m) : m.tree.Faultless r.geometry.baseLevel :=
  ⟨h.plain, check_eq_ok_iff_regular.mp h.check⟩

/-- **Coherent metadata overlays metadata at rest** with the same books. -/
theorem Region.Coherent.exists_atRest (h : r.Coherent m) :
    ∃ ref, ref.AtRest r.geometry.baseLevel ∧ m.Overlays ref := by
  have hok := h.faultless
  let ref := m.mapTree Tree.swept
  have hrec : ref.Records = fun n => (m.tree.get n).has .block = true :=
    funext fun n => propext (h.records n)
  refine ⟨ref, ⟨⟨⟨fun leaf hleaf => ?_, fun hn => ?_, fun ha hb => ?_⟩, ?_⟩, fun n s => ?_⟩,
    ⟨rfl, rfl, rfl⟩, fun n => ?_⟩
  · exact h.entry leaf fun hz => hleaf (congrArg UInt32.toNat hz)
  · exact hok.le_level ((h.records _).mp hn)
  · exact hok.apart ((h.records _).mp ha) ((h.records _).mp hb)
  · rw [hrec]
    exact hok.fits
  · rw [Metadata.tree_mapTree, Tree.get_swept, Status.isCoalescing_settled]
  · rw [Metadata.tree_mapTree, Tree.get_swept, Status.settled_settled]

/-- Orderly metadata is coherent, and its counters are right. -/
theorem Region.Orderly.coherent (h : r.Orderly m) : r.Coherent m :=
  ⟨h.plain, h.check, h.records, h.entry⟩

/-- **Orderly metadata overlays metadata that mirrors its blocks.** -/
theorem Region.Orderly.exists_mirrors (h : r.Orderly m) :
    ∃ ref, ref.Mirrors r.geometry.baseLevel m.indexed ∧ m.Overlays ref := by
  obtain ⟨ref, href, hover⟩ := h.coherent.exists_atRest
  refine ⟨ref, ?_, hover⟩
  rw [hover.books.indexed]
  refine ⟨href, fun b hb => ?_, fun n => ?_, href.nodup_indexed, fun o => ?_⟩
  · obtain ⟨n, -, hn⟩ := href.mem_indexed_iff.mp hb
    exact ⟨n, hn⟩
  · refine href.mem_indexed_iff.trans ⟨?_, fun hn => ⟨n, hn, rfl⟩⟩
    rintro ⟨a, ha, he⟩
    exact Node.block_inj he ▸ ha
  · rw [← hover.books.indexed, ← h.count o, UInt64.ofNat_toNat, hover.books.count]

/-- **Only orderly metadata does.** -/
theorem orderly_of_mirrors (hr : r.Managed) (href : ref.Mirrors r.geometry.baseLevel live)
    (h : m.Overlays ref) : r.Orderly m where
  plain := fun n => h.tree.plain (href.fits.plain n)
  check := check_eq_ok_iff_regular.mpr fun n => h.tree.regular_iff.mpr (href.toAtRest.regular n)
  records := fun n => by
    rw [h.records_iff, h.tree.has_block, href.fits.has_block_iff]
  entry := fun leaf hleaf =>
    (h.listed href.toListed).entry leaf fun hz => hleaf (UInt32.toNat_inj.mp hz)
  count := fun o => by
    rw [h.books.count, h.books.indexed]
    exact (href.indexed.canonical hr.depth_le).count o

/-! ## 4. Any announcements -/

/-- **Giving back a live block** leaves the others. -/
theorem Metadata.Mirrors.giveBack {d top : Nat} {m : Metadata d} {live : List Block} {n : Node d}
    (h : m.Mirrors top live) (hn : m.Records n) :
    (m.giveBack n top).Mirrors top (live.erase n.block) :=
  h.leave hn (h.toAtRest.retire hn) ⟨rfl, rfl, rfl⟩

/-- **Taking a block that can be had** adds it. -/
theorem Metadata.Mirrors.take {d top : Nat} {m : Metadata d} {live : List Block} {n : Node d}
    (hd : d ≤ maxDepth) (h : m.Mirrors top live) (hn : top ≤ n.level) (ha : m.Available n) :
    ((m.withMarks n top).enter n).Mirrors top (n.block :: live) ∧
      ∀ b, ((m.withMarks n top).enter n).Records b ↔ m.Records b ∨ b = n := by
  have hheld := h.toSound.holding_withMarks hn ha
  exact ⟨h.enter hd hheld (Metadata.quiet_marked h.quiet) ⟨rfl, rfl, rfl⟩,
    fun b => Metadata.records_enter_iff hd hheld⟩

/-- Did the call fail? -/
def Reply.Failed : Reply → Prop
  | .allocated (.error _) => True
  | .freed (.error _) => True
  | _ => False

/-- What a call promises. -/
structure Region.Careful (r : Region) (m : Metadata r.depth) (c : Call) : Prop where
  /-- It leaves orderly metadata. -/
  orderly : r.Orderly (r.call c m).2
  /-- If it hands out an address, a block is added there that was apart from all others. -/
  taken : ∀ address, (r.call c m).1 = .allocated (.ok address) →
    ∃ n : Node r.depth, r.addressOf n = address ∧ (∀ b, m.Records b → n.block.Apart b.block) ∧
      ∀ b, (r.call c m).2.Records b ↔ m.Records b ∨ b = n
  /-- If it gives back a recorded block, it succeeds and takes away that block; and the nodes in use
  are then the same as if no coalescing flag had been there before. -/
  givenBack : ∀ n, m.Records n → c = .free (r.addressOf n) →
    (r.call c m).1 = .freed (.ok ()) ∧
      (∀ b, (r.call c m).2.Records b ↔ m.Records b ∧ b ≠ n) ∧
      (r.call c m).2.tree.SameUse (r.call c (m.mapTree Tree.settled)).2.tree
  /-- If it fails, nothing has changed but that some coalescing flags may be gone. -/
  failed : (r.call c m).1.Failed → (r.call c m).2.tree.SameUse m.tree ∧
    m.SameBooks (r.call c m).2 ∧ (r.call c m).2.tree.AnnouncesIn m.tree

/-- Without coalescing flags it is an overlay, too, -/
theorem Metadata.Overlays.settled (h : m.Overlays ref) :
    (m.mapTree Tree.settled).Overlays ref :=
  ⟨h.books.mapTree id _, (Tree.sameUse_settled m.tree).trans h.tree⟩

/-- and any two overlays differ in coalescing flags only. -/
theorem Metadata.Overlays.same {m' : Metadata r.depth} (h : m.Overlays ref)
    (h' : m'.Overlays ref) : m'.tree.SameUse m.tree ∧ m.SameBooks m' :=
  ⟨h'.tree.trans h.tree.symm, h.books.symm.trans h'.books⟩

section Careful

variable (hr : r.Managed) (href : ref.Mirrors r.geometry.baseLevel live) (hover : m.Overlays ref)

include hr href hover

/-- **Taking a block** keeps the promises. -/
theorem careful_of_takes {c : Call} (hc : c.Takes) : r.Careful m c := by
  have hnot : ∀ n : Node r.depth, c ≠ .free (r.addressOf n) := by
    rintro n rfl
    exact hc
  rcases hover.take hr href.toAtRest hc with ⟨e, hreply, hover', hann⟩ |
    ⟨n, ⟨hn, ha⟩, hreply, hover'⟩
  · refine ⟨orderly_of_mirrors hr href hover', ?_, fun n _ he => absurd he (hnot n), fun _ => ?_⟩
    · intro address he
      cases hreply.symm.trans he
    · obtain ⟨huse, hbooks⟩ := hover.same hover'
      exact ⟨huse, hbooks, hann⟩
  · obtain ⟨hmirrors, hrec⟩ := href.take hr.depth_le hn ha
    refine ⟨orderly_of_mirrors hr hmirrors hover', ?_, fun n _ he => absurd he (hnot n), ?_⟩
    · intro address he
      cases hreply.symm.trans he
      refine ⟨n, rfl, fun b hb => ha.vacant b (hover.records_iff.mp hb), fun b => ?_⟩
      rw [hover'.records_iff, hrec b, hover.records_iff]
    · intro hfailed
      rw [hreply] at hfailed
      exact hfailed.elim

/-- **Giving back a recorded block** keeps the promises. -/
theorem careful_of_records {n : Node r.depth} (hn : m.Records n) :
    r.Careful m (.free (r.addressOf n)) := by
  have hnref := hover.records_iff.mp hn
  have hcall := hover.call_free hr href.toAtRest hnref
  refine ⟨?_, fun _ he => ?_, fun n' hn' he => ?_, fun hfailed => ?_⟩
  · rw [hcall]
    exact orderly_of_mirrors hr (href.giveBack hnref) (hover.giveBack n _)
  · rw [hcall] at he
    cases he
  · obtain rfl : n' = n := hn'.eq hn (hr.firstLeaf_eq_of_addressOf (Call.free.inj he).symm)
    rw [hcall, hover.settled.call_free hr href.toAtRest hnref]
    refine ⟨rfl, fun b => Metadata.records_giveBack_iff hn, ?_⟩
    exact (hover.giveBack _ _).tree.trans (hover.settled.giveBack _ _).tree.symm
  · rw [hcall] at hfailed
    exact hfailed.elim

/-- **Giving back anything else** changes nothing. -/
theorem careful_of_not_records {address : Nat}
    (hnone : ∀ n, m.Records n → r.addressOf n ≠ address) : r.Careful m (.free address) := by
  obtain ⟨reply, -, hcall⟩ := free_cases r address
  have hsame := hcall m _ (hover.listed href.toListed) hnone
  refine ⟨?_, fun _ he => ?_, fun n hn he => ?_, fun _ => ?_⟩
  · rw [hsame]
    exact orderly_of_mirrors hr href hover
  · rw [hsame] at he
    cases he
  · exact absurd (Call.free.inj he).symm (hnone n hn)
  · rw [hsame]
    exact ⟨.refl _, .refl m, fun _ _ => id⟩

end Careful

/-- **Sequential safety.**  Whatever coalescing flags stand anywhere, every call on orderly metadata
keeps its promises. -/
theorem careful_of_orderly {base size : Nat} {config : Config}
    (hof : Region.of base size config = .ok r) (h : r.Orderly m) (c : Call) : r.Careful m c := by
  have hr := Region.managed_of hof
  obtain ⟨ref, href, hover⟩ := h.exists_mirrors
  rcases r.call_cases m c with hc | ⟨n, hn, rfl⟩ | ⟨address, hnone, rfl⟩
  · exact careful_of_takes hr href hover hc
  · exact careful_of_records hr href hover hn
  · exact careful_of_not_records hr href hover hnone

/-- The upper half is free, but two announcements stand there; it is asked for. -/
theorem careful_of_orderly_of_announced :
    let r : Region := ⟨4096, ⟨1, 3, 0⟩⟩
    let upper : Node r.depth := ⟨3, by decide, by decide⟩
    let last : Node r.depth := ⟨15, by decide, by decide⟩
    let m := (r.calls [.alloc 2] (.blank _)).2.mapTree (·.announce (last.climb 2))
    Region.of 4096 8 ⟨1, 3⟩ = .ok r ∧ m.tree.get upper = Status.clear.announce .right ∧
      r.Orderly m ∧ r.Careful m (.alloc 4) := by
  have hof : Region.of 4096 8 ⟨1, 3⟩ = .ok ⟨4096, ⟨1, 3, 0⟩⟩ := rfl
  have hr := Region.managed_of hof
  have hrest := mirrors_calls hr [.alloc 2]
  have h := orderly_of_mirrors hr hrest
    ((Metadata.Overlays.refl _).announce (Node.climb ⟨15, by decide, by decide⟩ 2))
  exact ⟨hof, by decide +kernel, h, careful_of_orderly hof h (.alloc 4)⟩

/-! ## 5. Announcements beside their flags -/

/-- At rest every node is free if nothing is recorded. -/
theorem Metadata.AtRest.isFree_of_not_records {d top : Nat} {m : Metadata d} (h : m.AtRest top)
    (hnone : ∀ n, ¬ m.Records n) (a : Node d) : (m.tree.get a).isFree = true := by
  by_cases hl : top ≤ a.level
  · refine (Bool.not_eq_false _).mp fun hfree => ?_
    rcases (h.isFree_eq_false_iff hl).mp hfree with ⟨b, hb, -⟩ | ⟨s, hs⟩
    · exact hnone b hb
    · rw [h.quiet a s] at hs
      cases hs
  · rw [h.fits.above (by omega)]
    rfl

/-- **Left-over coalescing flags are invisible.**  If each of them stands beside its occupied flag,
calls give the same replies as without them, and all metadata but coalescing flags is the same
afterwards; each coalescing flag still stands beside its occupied flag, and when the index is empty,
no flag is left at all. -/
theorem calls_settled {base size : Nat} {config : Config}
    (hof : Region.of base size config = .ok r) (h : r.Orderly m) (hm : m.tree.Beside)
    (cs : List Call) :
    let flagged := r.calls cs m
    let clean := r.calls cs (m.mapTree Tree.settled)
    flagged.1 = clean.1 ∧
      flagged.2.tree.SameUse clean.2.tree ∧ clean.2.SameBooks flagged.2 ∧
      flagged.2.tree.Beside ∧ clean.2.tree.Beside ∧
      ((∀ n, ¬ flagged.2.Records n) →
        ∀ a, flagged.2.tree.get a = .clear ∧ clean.2.tree.get a = .clear) := by
  intro flagged clean
  have hr := Region.managed_of hof
  obtain ⟨ref, href, hover⟩ := h.exists_mirrors
  have hclean : (m.mapTree Tree.settled).tree.Beside := by
    intro a s hc
    rw [Metadata.tree_mapTree, Tree.get_settled, Status.isCoalescing_settled] at hc
    cases hc
  obtain ⟨hreplies, hend, hbeside⟩ := hover.calls hr href.toAtRest hm cs
  obtain ⟨hreplies', hend', hbeside'⟩ := hover.settled.calls hr href.toAtRest hclean cs
  obtain ⟨huse, hbooks⟩ := hend'.same hend
  refine ⟨hreplies.trans hreplies'.symm, huse, hbooks, hbeside, hbeside', fun hnone a => ?_⟩
  have hrest := (href.calls hr cs).2.1.toAtRest
  have hfree : ((r.calls cs ref).2.tree.get a).isFree = true :=
    hrest.isFree_of_not_records (fun n hn => hnone n (hend.records_iff.mpr hn)) a
  exact ⟨hend.clear_of_isFree hrest hbeside ((hend.tree.isFree a).trans hfree),
    hend'.clear_of_isFree hrest hbeside' ((hend'.tree.isFree a).trans hfree)⟩

/-- The first climb of a release of a recorded block announces it beside occupied flags. -/
theorem Metadata.AtRest.beside_announce {d top k : Nat} {m : Metadata d} {n : Node d}
    (h : m.AtRest top) (hn : m.Records n) (hk : top + k ≤ n.level) :
    (m.tree.announce (n.climb k)).Beside := by
  intro a s hc
  rw [((Tree.SameUse.refl m.tree).announce _).isOccupied]
  rcases Tree.isCoalescing_announce.mp hc with hold | ⟨hin, hl, -⟩
  · rw [h.quiet a s] at hold
    cases hold
  · exact (h.isOccupied_iff (fun ha => h.apart ha hn hin) (by omega) s).mpr (.inl ⟨n, hn, hin⟩)

/-- A release of a live block was announced up to the root, and nothing came of it. -/
theorem calls_settled_of_announced :
    let r : Region := ⟨4096, ⟨1, 3, 0⟩⟩
    let first : Node r.depth := ⟨8, by decide, by decide⟩
    let root : Node r.depth := ⟨1, by decide, by decide⟩
    let m := (r.calls [.alloc 1] (.blank _)).2.mapTree (·.announce (first.climb 3))
    let cs : List Call := [.alloc 1, .free 4096, .alloc 4, .free 4097]
    Region.of 4096 8 ⟨1, 3⟩ = .ok r ∧ (m.tree.get root).isCoalescing .left = true ∧
      r.Orderly m ∧ m.tree.Beside ∧ (r.calls cs m).1 = (r.calls cs (m.mapTree Tree.settled)).1 := by
  have hof : Region.of 4096 8 ⟨1, 3⟩ = .ok ⟨4096, ⟨1, 3, 0⟩⟩ := rfl
  have hr := Region.managed_of hof
  have hrest := mirrors_calls hr [.alloc 1]
  have h := orderly_of_mirrors hr hrest
    ((Metadata.Overlays.refl _).announce (Node.climb ⟨8, by decide, by decide⟩ 3))
  have hbeside := hrest.toAtRest.beside_announce (n := ⟨8, by decide, by decide⟩) (k := 3)
    (by unfold Metadata.Records; decide +kernel) (by decide)
  exact ⟨hof, by decide +kernel, h, hbeside, (calls_settled hof h hbeside _).1⟩

end Orderly

end BuddyTree
