/-
# What the counters say while others come in

The index, the tree and the counters are changed at different moments.  A block is entered in the
index and counted at once, but a release takes it out of the index first and counts it last, and
others may come in between: they see a block that is counted and no longer recorded, and may even be
handed its memory, so that the same granules are counted twice.

So the counters count the recorded blocks and the block that is leaving, if one is.  This is kept by
every call, by those in between too, and it is all that is needed: since recorded blocks are apart,
and since nobody comes in while the whole region is released, the bytes in use never add up to more
than a word holds.

The main facts: `Sound.call_tallies` (what a call does to the counters), `filmed_tallies` (what an
interrupted call does to them), `Tallies.balanced` (what follows for the bytes in use), and
`accounts_balanced`.
-/
import BuddyTree.Proofs.Exclusion
import BuddyTree.Proofs.Exhaustion

namespace BuddyTree

/-! ## 1. Tallies -/

namespace Metadata

variable {d : Nat}

/-- The counters count the recorded blocks and those that are leaving, and the release counter
counts what was given back. -/
structure Tallies (m : Metadata d) (leaving : List Block) (completed : Nat) : Prop where
  count : m.Counts (leaving ++ m.indexed)
  released : m.released = .ofNat completed

variable {m : Metadata d} {top k : Nat} {leaving : List Block} {n : Node d}

theorem tallies_blank (d : Nat) : (blank d).Tallies [] 0 := by
  have hnone : (blank d).indexed = [] := by
    refine List.eq_nil_iff_forall_not_mem.mpr fun b hb => ?_
    obtain ⟨n, hn, -⟩ := (sound_blank d 0).mem_indexed_iff.mp hb
    exact not_records_blank n hn
  exact ⟨fun o => by simp [hnone], rfl⟩

/-- A change of the tree is not seen. -/
theorem Tallies.mapTree (h : m.Tallies leaving k) (f : Tree d → Tree d) :
    (m.mapTree f).Tallies leaving k :=
  ⟨h.count, h.released⟩

/-- A held block is one more than the index has. -/
theorem Holding.nodup_cons (h : m.Holding top n top) : (n.block :: m.indexed).Nodup := by
  refine List.nodup_cons.mpr ⟨fun hn => ?_, h.nodup_indexed⟩
  obtain ⟨a, ha, he⟩ := h.mem_indexed_iff.mp hn
  exact h.not_records (Node.block_inj he ▸ ha)

/-- An entered block is one more in the index, -/
theorem Holding.perm_enter (hd : d ≤ maxDepth) (h : m.Holding top n top) :
    (n.block :: m.indexed).Perm (m.enter n).indexed := by
  have hlisted := (h.enter hd).toListed
  refine (List.perm_ext_iff_of_nodup h.nodup_cons hlisted.nodup_indexed).mpr fun b => ?_
  simp only [List.mem_cons, h.mem_indexed_iff, hlisted.mem_indexed_iff, records_enter_iff hd h,
    or_and_right, exists_or, exists_eq_left]
  exact or_comm.trans (or_congr_right eq_comm)

/-- and one that is taken out is one less. -/
theorem Sound.perm_withdraw (h : m.Sound top) (hn : m.Records n) :
    m.indexed.Perm (n.block :: (m.withdraw n.firstLeaf).indexed) := by
  have hheld := h.withdraw hn
  refine (List.perm_ext_iff_of_nodup h.nodup_indexed hheld.nodup_cons).mpr fun b => ?_
  rw [List.mem_cons, h.mem_indexed_iff, hheld.mem_indexed_iff]
  simp only [records_withdraw_iff hn]
  constructor
  · rintro ⟨a, ha, rfl⟩
    by_cases he : a = n
    · exact .inl (he ▸ rfl)
    · exact .inr ⟨a, ⟨ha, he⟩, rfl⟩
  · rintro (rfl | ⟨a, ⟨ha, -⟩, rfl⟩)
    · exact ⟨n, hn, rfl⟩
    · exact ⟨a, ha, rfl⟩

/-- **Entering a block** counts it. -/
theorem Tallies.enter (hd : d ≤ maxDepth) (hheld : m.Holding top n top)
    (h : m.Tallies leaving k) : (m.enter n).Tallies leaving k :=
  ⟨(h.count.enter n).perm
    (List.perm_middle.symm.trans ((hheld.perm_enter hd).append_left leaving)), h.released⟩

/-- **Taking a block out of the index** makes it one that is leaving, -/
theorem Tallies.withdraw (hm : m.Sound top) (hn : m.Records n) (h : m.Tallies leaving k) :
    (m.withdraw n.firstLeaf).Tallies (n.block :: leaving) k :=
  ⟨h.count.perm (((hm.perm_withdraw hn).append_left leaving).trans List.perm_middle), h.released⟩

/-- and when it is counted as released, it has left. -/
theorem Tallies.discharge (h : m.Tallies (n.block :: leaving) k) :
    (m.discharge n).Tallies leaving (k + 1) :=
  ⟨h.count.discharge, by rw [released_discharge, h.released, UInt64.ofNat_add]; rfl⟩

theorem Tallies.giveBack (hm : m.Sound top) (hn : m.Records n) (h : m.Tallies leaving k) :
    (m.giveBack n top).Tallies leaving (k + 1) :=
  ((h.withdraw hm hn).mapTree _).discharge

/-- Recorded blocks are at most as many as granules. -/
theorem Listed.length_indexed_le (h : m.Listed top) : m.indexed.length ≤ 2 ^ d :=
  Nat.le_trans (Blocks.length_le_granules _)
    (h.granules_le (fun _ => h.mem_indexed_iff.mp) h.nodup_indexed)

/-- **No counter wraps.**  If at most two blocks are leaving, each of them is the number of blocks
that it counts. -/
theorem Tallies.toNat_count (h : m.Tallies leaving k) (hm : m.Listed top) (hd : d ≤ maxDepth)
    (hfew : leaving.length ≤ 2) (o : Fin (d + 1)) :
    (m.count o).toNat = (leaving ++ m.indexed).countP fun b => b.order == o.val := by
  have hlen : (leaving ++ m.indexed).countP (fun b => b.order == o.val) ≤ 2 + 2 ^ maxDepth := by
    refine Nat.le_trans List.countP_le_length ?_
    rw [List.length_append]
    exact Nat.add_le_add hfew
      (Nat.le_trans hm.length_indexed_le (Nat.pow_le_pow_right Nat.two_pos hd))
  rw [h.count o, UInt64.toNat_ofNat_of_lt']
  exact Nat.lt_of_le_of_lt hlen (by decide)

end Metadata

/-! ## 2. One call -/

section OneCall

variable {r : Region} {m : Metadata r.depth} {leaving : List Block} {k : Nat}

/-- **A call that nobody interferes with** keeps the tally: what it enters is counted, and what it
gives back is counted as given back. -/
theorem Metadata.Sound.call_tallies (hr : r.Managed) (h : m.Sound r.geometry.baseLevel)
    (ht : m.Tallies leaving k) (c : Call) :
    (r.call c m).2.Sound r.geometry.baseLevel ∧
      (r.call c m).2.Tallies leaving (k + if c.gaveBack (r.call c m).1 then 1 else 0) := by
  rcases r.call_cases m c with hc | ⟨n, hn, rfl⟩ | ⟨address, hnone, rfl⟩
  · rw [hc.gaveBack_eq]
    refine take_rule (P := Standing _ fun w => w.store.Tallies leaving k) (w := ⟨m, ()⟩) hr
      (keeps_silent _) (fun n hn => standing_claim (fun _ f hw => hw.mapTree f) (keeps_silent _) hn)
      (fun n w hw => ?_) hc ⟨h, ht⟩
    exact ⟨hw.1.enter hr.depth_le, hw.2.enter hr.depth_le hw.1⟩
  · rw [free_recorded hr hn (h.level hn) (h.isFree_of_records hn), hr.gaveBack_recorded]
    exact ⟨h.giveBack hn, ht.giveBack h hn⟩
  · obtain ⟨reply, hzero, hcall⟩ := free_cases r address
    rw [hcall m _ h.toListed hnone, Call.gaveBack_unrecorded hzero]
    exact ⟨h, ht⟩

end OneCall

/-! ## 3. Calls in between -/

/-- Calls that were filmed, with their replies. -/
def Shot.answers {d : Nat} (done : List (Call × Shot d)) : List (Call × Reply) :=
  done.map fun p => (p.1, p.2.reply)

section Between

variable {r : Region} {m : Metadata r.depth} {leaving : List Block} {k : Nat}

/-- What a shot shows of a call: it is the call that nobody listens to, it found this tally, and it
left one in which it is counted itself. -/
structure Shot.Tallies (r : Region) (leaving : List Block) (k : Nat) (c : Call)
    (shot : Shot r.depth) : Prop where
  call : r.call c shot.before = (shot.reply, shot.after)
  sound : shot.before.Sound r.geometry.baseLevel
  before : shot.before.Tallies leaving k
  soundAfter : shot.after.Sound r.geometry.baseLevel
  after : shot.after.Tallies leaving (k + if c.gaveBack shot.reply then 1 else 0)

theorem film_tallies (hr : r.Managed) (c : Call) {v : World r.depth (Array Record)}
    (h : v.store.Sound r.geometry.baseLevel) (ht : v.store.Tallies leaving k) :
    Shot.Tallies r leaving k c (r.film c v).1 := by
  have hcall : r.call c v.store = ((r.film c v).1.reply, (r.film c v).1.after) :=
    perform_recorder r c v
  obtain ⟨hsound, hafter⟩ := h.call_tallies hr ht c
  simp only [hcall] at hsound hafter
  exact ⟨hcall, h, ht, hsound, hafter⟩

/-- Each of these calls found the tally that the calls before it had left. -/
def Region.Tallied (r : Region) (leaving : List Block) (k : Nat)
    (done : List (Call × Shot r.depth)) : Prop :=
  ∀ earlier p later, done = earlier ++ p :: later →
    Shot.Tallies r leaving (k + givenBack (Shot.answers earlier)) p.1 p.2

theorem Region.Tallied.concat {done : List (Call × Shot r.depth)} {p : Call × Shot r.depth}
    (h : r.Tallied leaving k done)
    (hp : Shot.Tallies r leaving (k + givenBack (Shot.answers done)) p.1 p.2) :
    r.Tallied leaving k (done ++ [p]) := by
  intro earlier q later he
  rcases List.eq_nil_or_concat later with rfl | ⟨later, q', rfl⟩
  · obtain ⟨rfl, hlast⟩ := List.append_inj' he rfl
    rwa [← (List.cons.inj hlast).1]
  · rw [List.concat_eq_append, ← List.cons_append, ← List.append_assoc] at he
    exact h earlier q later (List.append_inj' he rfl).1

theorem givenBack_answers_concat {d : Nat} (done : List (Call × Shot d)) (p : Call × Shot d) :
    givenBack (Shot.answers (done ++ [p])) =
      givenBack (Shot.answers done) + if p.1.gaveBack p.2.reply then 1 else 0 := by
  rw [Shot.answers, List.map_append, givenBack, givenBack, List.countP_append]
  exact congrArg _ List.countP_singleton

/-- The state of a run: the tally is right, and was right whenever somebody came in. -/
def World.Tallied (leaving : List Block) (k : Nat) (w : World r.depth (Watch Call (Shot r.depth))) :
    Prop :=
  w.store.Tallies leaving (k + givenBack (Shot.answers w.env.done.toList)) ∧
    r.Tallied leaving k w.env.done.toList

theorem treeBlind_tallied : TreeBlind (World.Tallied (r := r) leaving k) :=
  fun _ f h => ⟨h.1.mapTree f, h.2⟩

/-- **Those who come in** keep the tally. -/
theorem keeps_tallied (hr : r.Managed) :
    (watching r.depth r.film).Keeps (Standing r.geometry.baseLevel (World.Tallied leaving k)) := by
  rintro record w - ⟨hs, ht, hdone⟩
  have hstep : ∀ c (v : World r.depth (Array Record)) (done : Array (Call × Shot r.depth)), True →
      v.store.Sound r.geometry.baseLevel ∧
        v.store.Tallies leaving (k + givenBack (Shot.answers done.toList)) ∧
        r.Tallied leaving k done.toList →
      (r.film c v).2.store.Sound r.geometry.baseLevel ∧
        (r.film c v).2.store.Tallies leaving
          (k + givenBack (Shot.answers (done.push (c, (r.film c v).1)).toList)) ∧
        r.Tallied leaving k (done.push (c, (r.film c v).1)).toList := by
    rintro c v done - ⟨hv, htv, hall⟩
    have hshot := film_tallies hr c hv htv
    rw [Array.toList_push, givenBack_answers_concat, ← Nat.add_assoc]
    exact ⟨hshot.soundAfter, hshot.after, hall.concat hshot⟩
  exact react_rule hstep record (fun _ _ _ _ _ => trivial) ⟨hs, ht, hdone⟩

end Between

/-! ## 4. An interrupted call -/

/-- The block that a call takes out of the index when it begins. -/
def Region.leaving (r : Region) (m : Metadata r.depth) : Call → Option Block
  | .free address => m.indexed.find? fun b => r.base + b.first * r.geometry.minSize == address
  | _ => none

section Interrupted

variable {r : Region} {m : Metadata r.depth} {k : Nat}

theorem Region.leaving_of_takes {c : Call} (hc : c.Takes) : r.leaving m c = none := by
  cases c with
  | alloc _ | allocLayout _ => rfl
  | free _ => exact hc.elim

theorem Region.leaving_of_not_records (h : m.Listed r.geometry.baseLevel) {address : Nat}
    (hnone : ∀ n, m.Records n → r.addressOf n ≠ address) : r.leaving m (.free address) = none := by
  refine List.find?_eq_none.mpr fun b hb he => ?_
  obtain ⟨n, hn, rfl⟩ := h.mem_indexed_iff.mp hb
  exact hnone n hn (beq_iff_eq.mp he)

theorem Region.leaving_of_records (hr : r.Managed) (h : m.Listed r.geometry.baseLevel)
    {n : Node r.depth} (hn : m.Records n) : r.leaving m (.free (r.addressOf n)) = some n.block := by
  cases hfound : r.leaving m (.free (r.addressOf n)) with
  | none =>
    exact absurd (beq_iff_eq.mpr rfl)
      (List.find?_eq_none.mp hfound n.block (h.mem_indexed_iff.mpr ⟨n, hn, rfl⟩))
  | some b =>
    obtain ⟨a, ha, rfl⟩ := h.mem_indexed_iff.mp (List.mem_of_find?_eq_some hfound)
    have hstart := List.find?_some hfound
    have haddress : r.addressOf a = r.addressOf n := beq_iff_eq.mp hstart
    rw [ha.eq hn (hr.firstLeaf_eq_of_addressOf haddress)]

/-- Nobody has come in yet. -/
theorem tallied_start {leaving : List Block} (ht : m.Tallies leaving k) (hooks : List (Hook Call)) :
    World.Tallied (r := r) leaving k ⟨m, .start hooks⟩ :=
  ⟨ht, fun _ _ _ he => absurd he (by simp [Watch.start])⟩

/-- What an interrupted call does to a tally. -/
structure Region.KeepsTally (r : Region) (m : Metadata r.depth) (k : Nat) (c : Call)
    (run : Reply × Watch Call (Shot r.depth) × Metadata r.depth) : Prop where
  sound : run.2.2.Sound r.geometry.baseLevel
  /-- It leaves a tally in which all calls are counted. -/
  after : run.2.2.Tallies [] (k + (givenBack (Shot.answers run.2.1.done.toList) +
    if c.gaveBack run.1 then 1 else 0))
  /-- Those in between saw one with the block that it was giving back, -/
  between : r.Tallied (r.leaving m c).toList k run.2.1.done.toList
  /-- and if there were any, that was not the whole region. -/
  partly : run.2.1.done.toList ≠ [] → ∀ b ∈ r.leaving m c, b.order < r.depth

section Kinds

variable (hr : r.Managed) (h : m.Sound r.geometry.baseLevel) (ht : m.Tallies [] k)
  (hooks : List (Hook Call))

include hr h ht

/-- **Taking a block,** -/
theorem keepsTally_of_takes {c : Call} (hc : c.Takes) :
    r.KeepsTally m k c (r.filmed c hooks m) := by
  have hend : Standing _ (World.Tallied [] k)
      (c.perform r (watching _ r.film) ⟨m, .start hooks⟩).2 :=
    take_rule hr (keeps_tallied hr)
      (fun n hn => standing_claim treeBlind_tallied (keeps_tallied hr) hn)
      (fun n w hw => ⟨hw.1.enter hr.depth_le, hw.2.1.enter hr.depth_le hw.1, hw.2.2⟩) hc
      ⟨h, tallied_start ht hooks⟩
  exact
    { sound := hend.1
      after := by rw [hc.gaveBack_eq]; exact hend.2.1
      between := by rw [r.leaving_of_takes hc]; exact hend.2.2
      partly := by rw [r.leaving_of_takes hc]; exact nofun }

/-- **giving back a recorded one,** which is leaving until the second climb has ended, -/
theorem keepsTally_of_records {n : Node r.depth} (hn : m.Records n) :
    r.KeepsTally m k (.free (r.addressOf n)) (r.filmed (.free (r.addressOf n)) hooks m) := by
  let released := merge (watching _ r.film) (n.climb (n.level - r.geometry.baseLevel))
    ⟨(m.withdraw n.firstLeaf).giveUp n r.geometry.baseLevel, .start hooks⟩
  have hrun : r.filmed (.free (r.addressOf n)) hooks m =
      (.freed (.ok ()), released.env, released.store.discharge n) := by
    have hfree := free_perform_recorded hr (watching _ r.film) (w := ⟨m, .start hooks⟩) h hn
    unfold Region.filmed Region.watched
    rw [hfree]
    rfl
  have hgiven := treeBlind_tallied _ (fun t => t.giveUp n r.geometry.baseLevel)
    (tallied_start (ht.withdraw h hn) hooks)
  have hend : Standing _ (World.Tallied [n.block] k) released :=
    standing_merge treeBlind_tallied (keeps_tallied hr) _ ⟨(h.withdraw hn).giveUp, hgiven⟩
  have hleaving := r.leaving_of_records hr h.toListed hn
  rw [hrun]
  refine
    { sound := hend.1.discharge n
      after := by rw [hr.gaveBack_recorded]; exact hend.2.1.discharge
      between := by rw [hleaving]; exact hend.2.2
      partly := ?_ }
  rw [hleaving]
  rintro hdone b ⟨⟩
  -- a release of the root has nothing to climb and reports nothing
  refine Nat.lt_of_le_of_ne (Nat.sub_le _ _) fun horder => hdone ?_
  have hlevel : n.level = 0 := by
    have := n.order_add_level
    have : n.order = r.depth := horder
    omega
  simp only [released, hlevel, Nat.zero_sub]
  rfl

/-- **and giving back anything else** keep the tally. -/
theorem keepsTally_of_not_records {address : Nat}
    (hnone : ∀ n, m.Records n → r.addressOf n ≠ address) :
    r.KeepsTally m k (.free address) (r.filmed (.free address) hooks m) := by
  obtain ⟨reply, report, hzero, hreport, hperform⟩ := free_perform_unrecorded r address
  have hleaving := r.leaving_of_not_records h.toListed hnone
  have hend : Standing r.geometry.baseLevel (World.Tallied [] k)
      (report.elim ⟨m, .start hooks⟩ ((watching r.depth r.film).react · ⟨m, .start hooks⟩)) := by
    cases report with
    | none => exact ⟨h, tallied_start ht hooks⟩
    | some record =>
      exact keeps_tallied hr record _ (hreport record rfl).1 ⟨h, tallied_start ht hooks⟩
  have hrun := hperform (watching _ r.film) ⟨m, .start hooks⟩ _ h.toListed hnone
  unfold Region.filmed Region.watched
  rw [hrun]
  exact
    { sound := hend.1
      after := by rw [Call.gaveBack_unrecorded hzero]; exact hend.2.1
      between := by rw [hleaving]; exact hend.2.2
      partly := by rw [hleaving]; exact nofun }

/-- **Every interrupted call** keeps the tally. -/
theorem filmed_tallies (c : Call) : r.KeepsTally m k c (r.filmed c hooks m) := by
  rcases r.call_cases m c with hc | ⟨n, hn, rfl⟩ | ⟨address, hnone, rfl⟩
  · exact keepsTally_of_takes hr h ht hooks hc
  · exact keepsTally_of_records hr h ht hooks hn
  · exact keepsTally_of_not_records hr h ht hooks hnone

end Kinds

end Interrupted

/-! ## 5. Sums -/

/-- What the counters say while a block is being given back, or none, and after so many have
been. -/
structure Region.Balanced (r : Region) (m : Metadata r.depth) (leaving : Option Block)
    (completed : Nat) : Prop where
  /-- Each counter is the number of recorded blocks of its order, with the one that is leaving. -/
  count : ∀ o : Fin (r.depth + 1), (m.count o).toNat =
    m.indexed.countP (fun b => b.order == o.val) +
      if leaving.map Block.order = some o.val then 1 else 0
  /-- The release counter is the number of blocks given back, unless that is too large for it. -/
  released : completed < addressLimit → m.released.toNat = completed
  /-- The bytes of each order's blocks fit a word, -/
  product : ∀ o ≤ r.geometry.maxOrder,
    (m.liveAt o).toNat * (2 ^ o * r.geometry.minSize) < addressLimit
  /-- and so do they when they are added up, one order after the other. -/
  sum : ∀ k ≤ r.geometry.maxOrder + 1, ((List.range k).map fun o =>
    (m.liveAt o).toNat * (2 ^ o * r.geometry.minSize)).foldl (· + ·) 0 < addressLimit
  /-- So the bytes in use are those of the blocks that are counted, -/
  used : (⟨r, m⟩ : Allocator).usedMemory.toNat =
    Blocks.bytes r.geometry.minSize (leaving.toList ++ m.indexed)
  /-- and if none is leaving, they are no more than the region has. -/
  inside : leaving = none → (⟨r, m⟩ : Allocator).usedMemory.toNat ≤ r.geometry.totalMemory

section Sums

variable {r : Region} {m : Metadata r.depth} {k : Nat} {leaving : Option Block}

/-- A region has a power of two of bytes and does not begin at 0, so it is at most half of what can
be addressed. -/
theorem Region.Managed.totalMemory_le (hr : r.Managed) :
    r.geometry.totalMemory ≤ 2 ^ (63 : Nat) := by
  obtain ⟨e, he⟩ := isPowerOfTwo_iff.mp hr.granule
  have hpow : r.geometry.totalMemory = 2 ^ (r.geometry.depth + e) := by
    rw [Geometry.totalMemory, he, Nat.pow_add]
  have hlt : r.geometry.totalMemory < 2 ^ (64 : Nat) := by
    have := hr.base_pos
    have hfits := hr.fits
    unfold addressLimit at hfits
    omega
  rw [hpow] at hlt ⊢
  exact Nat.pow_le_pow_right Nat.two_pos
    (Nat.le_of_lt_succ ((Nat.pow_lt_pow_iff_right (by decide)).mp hlt))

/-- **There is room for one block more,** if it is not the whole region. -/
theorem Metadata.Listed.bytes_lt (hr : r.Managed) (h : m.Listed r.geometry.baseLevel)
    (hleaving : ∀ b ∈ leaving, b.order < r.depth) :
    Blocks.bytes r.geometry.minSize (leaving.toList ++ m.indexed) < addressLimit := by
  have htotal := hr.totalMemory_le
  have hindexed : Blocks.granules m.indexed * r.geometry.minSize ≤ r.geometry.totalMemory :=
    Nat.mul_le_mul_right _ (h.granules_le (fun _ => h.mem_indexed_iff.mp) h.nodup_indexed)
  rw [Blocks.bytes, Blocks.granules_append, Nat.add_mul]
  unfold addressLimit
  cases leaving with
  | none =>
    rw [Option.toList_none, Blocks.granules, Nat.zero_mul, Nat.zero_add]
    omega
  | some b =>
    have horder := hleaving b rfl
    have hhalf : 2 * (2 ^ b.order * r.geometry.minSize) ≤ r.geometry.totalMemory := by
      rw [← Nat.mul_assoc, ← Nat.pow_succ']
      exact Nat.mul_le_mul_right _ (Nat.pow_le_pow_right Nat.two_pos horder)
    rw [Option.toList_some, Blocks.granules, Blocks.granules, Nat.add_zero]
    omega

/-- **What follows from a tally.** -/
theorem Metadata.Tallies.balanced (hr : r.Managed) (hm : m.Listed r.geometry.baseLevel)
    (ht : m.Tallies leaving.toList k)
    (hleaving : ∀ b ∈ leaving, b.order ≤ r.geometry.maxOrder ∧ b.order < r.depth) :
    r.Balanced m leaving k := by
  have hroom := hm.bytes_lt hr fun b hb => (hleaving b hb).2
  have hmax : r.geometry.maxOrder ≤ r.depth := Nat.sub_le _ _
  have hfew : leaving.toList.length ≤ 2 := by cases leaving <;> simp
  have hlive : ∀ o ≤ r.geometry.maxOrder, (m.liveAt o).toNat =
      (leaving.toList ++ m.indexed).countP fun b => b.order == o := by
    intro o ho
    have hcount := ht.toNat_count hm hr.depth_le hfew ⟨o, by omega⟩
    rwa [ht.count, ← ht.count.liveAt_eq (by omega)] at hcount
  have hsum : ∀ k ≤ r.geometry.maxOrder + 1, ((List.range k).map fun o =>
      (m.liveAt o).toNat * (2 ^ o * r.geometry.minSize)).foldl (· + ·) 0 < addressLimit := by
    intro k hk
    have heq : ((List.range k).map fun o => (m.liveAt o).toNat * (2 ^ o * r.geometry.minSize)) =
        (List.range k).map fun o => (leaving.toList ++ m.indexed).countP (fun b => b.order == o) *
          (2 ^ o * r.geometry.minSize) :=
      List.map_congr_left fun o ho => by
        rw [hlive o (by have := List.mem_range.mp ho; omega)]
    rw [heq]
    exact Nat.lt_of_le_of_lt (Blocks.sum_count_le _ _ k) hroom
  have horder : ∀ b ∈ leaving.toList ++ m.indexed, b.order ≤ r.geometry.maxOrder := by
    intro b hb
    rcases List.mem_append.mp hb with hb | hb
    · exact (hleaving b (Option.mem_toList.mp hb)).1
    · obtain ⟨n, hn, rfl⟩ := hm.mem_indexed_iff.mp hb
      exact hm.order_le hn
  have hused : (⟨r, m⟩ : Allocator).usedMemory.toNat =
      Blocks.bytes r.geometry.minSize (leaving.toList ++ m.indexed) := by
    rw [Allocator.usedMemory, ht.count.usedMemory_eq hmax horder, UInt64.toNat_ofNat_of_lt' hroom]
  refine ⟨fun o => ?_, fun hk => ?_, fun o ho => ?_, hsum, hused, ?_⟩
  · rw [ht.toNat_count hm hr.depth_le hfew o, List.countP_append, Nat.add_comm]
    congr 1
    cases leaving with
    | none => rfl
    | some b => simp [List.countP_singleton]
  · rw [ht.released, UInt64.toNat_ofNat_of_lt' hk]
  · refine Nat.lt_of_le_of_lt ?_ (hsum (o + 1) (by omega))
    rw [List.range_succ, List.map_append, List.foldl_append]
    exact Nat.le_add_left _ _
  · rintro rfl
    rw [hused]
    exact Nat.mul_le_mul_right _ (hm.granules_le (fun _ => hm.mem_indexed_iff.mp) hm.nodup_indexed)

end Sums

/-! ## 6. Runs -/

/-- Where a release of the block in an entry succeeds, its counter is not zero, and counting it as
released takes one away. -/
def Region.Discharges {ε : Type} (r : Region) (obs : Observer r.depth ε) (w : World r.depth ε) :
    Prop :=
  ∀ leaf n w', Node.ofId? r.depth (w.store.entry leaf).toNat = some n →
    release obs n r.geometry.baseLevel (w.mapStore (.withdraw leaf)) = (true, w') →
      w'.store.count n.orderIndex ≠ 0

namespace Region

/-- How many blocks the calls of a run give back, those in between included. -/
def completed (r : Region) : List (Call × List (Hook Call)) → Metadata r.depth → Nat
  | [], _ => 0
  | (c, hooks) :: rest, m =>
    let (reply, watch, m') := r.interrupted c hooks m
    givenBack (watch.done.toList ++ [(c, reply)]) + r.completed rest m'

/-- The counters are right whenever somebody comes in during a call that is made at `m`, after so
many blocks were given back. -/
structure Audited (r : Region) (m : Metadata r.depth) (completed : Nat) (c : Call)
    (hooks : List (Hook Call)) : Prop where
  /-- They are right when it begins, -/
  before : r.Balanced m none completed
  /-- when a call in between begins and when it has ended, -/
  between : ∀ earlier p later, (r.filmed c hooks m).2.1.done.toList = earlier ++ p :: later →
    let sofar := completed + givenBack (Shot.answers earlier)
    r.call p.1 p.2.before = (p.2.reply, p.2.after) ∧
      r.Balanced p.2.before (r.leaving m c) sofar ∧
      r.Balanced p.2.after (r.leaving m c) (sofar + if p.1.gaveBack p.2.reply then 1 else 0)
  /-- and when it has ended itself. -/
  after : r.Balanced (r.interrupted c hooks m).2.2 none (completed +
    givenBack ((r.interrupted c hooks m).2.1.done.toList ++ [(c, (r.interrupted c hooks m).1)]))
  /-- Its own release takes one from a counter that is not zero, -/
  discharges : r.Discharges (watching _ r.film) ⟨m, .start hooks⟩
  /-- and so do those in between. -/
  dischargesBetween : ∀ p ∈ (r.filmed c hooks m).2.1.done, r.Discharges (silent _) ⟨p.2.before, ()⟩

end Region

section Runs

variable {r : Region} {m : Metadata r.depth} {k : Nat} {leaving : List Block}

/-- **A block that is leaving** is counted. -/
theorem Metadata.Tallies.count_ne_zero (hr : r.Managed) {n : Node r.depth}
    (h : m.Tallies (n.block :: leaving) k) (hm : m.Listed r.geometry.baseLevel)
    (hfew : leaving.length ≤ 1) : m.count n.orderIndex ≠ 0 := by
  intro hz
  have hcount := h.toNat_count hm hr.depth_le (Nat.succ_le_succ hfew) n.orderIndex
  rw [hz, List.cons_append, List.countP_cons, if_pos (orderIndex_eq_iff.mp rfl)] at hcount
  cases hcount

/-- **No decrement wraps,** whoever listens and keeps the tally. -/
theorem discharges_of_keeps (hr : r.Managed) (leaving : List Block) {ε : Type}
    {obs : Observer r.depth ε} (B : Block → World r.depth ε → Prop) (hblind : ∀ b, TreeBlind (B b))
    (hobs : ∀ b, obs.Keeps (Standing r.geometry.baseLevel (B b)))
    (htally : ∀ b w, B b w → ∃ k, w.store.Tallies (b :: leaving) k) (hfew : leaving.length ≤ 1)
    {w : World r.depth ε} (h : w.store.Sound r.geometry.baseLevel)
    (hstart : ∀ n, w.store.Records n → B n.block (w.mapStore (.withdraw n.firstLeaf))) :
    r.Discharges obs w := by
  intro leaf n w' hn hrelease
  obtain ⟨hrec, rfl⟩ := h.records_of_entry hn
  have hheld : (w.mapStore (.withdraw n.firstLeaf)).store.Holding r.geometry.baseLevel n
      r.geometry.baseLevel := h.withdraw hrec
  have hend := (standing_release (hblind _) (hobs _) hheld (hstart n hrec)).2
  rw [hrelease] at hend
  obtain ⟨j, hj⟩ := htally _ _ hend.2
  exact hj.count_ne_zero hr hend.1.toListed hfew

/-- **One step of a run.** -/
theorem tallies_interrupted (hr : r.Managed) (h : m.Sound r.geometry.baseLevel)
    (ht : m.Tallies [] k) (c : Call) (hooks : List (Hook Call)) :
    let run := r.interrupted c hooks m
    run.2.2.Sound r.geometry.baseLevel ∧
      run.2.2.Tallies [] (k + givenBack (run.2.1.done.toList ++ [(c, run.1)])) := by
  have hdone : ∀ done : Array (Call × Shot r.depth),
      (done.map fun p => (p.1, p.2.reply)).toList = Shot.answers done.toList :=
    fun _ => Array.toList_map
  intro run
  obtain ⟨hs, htally, -⟩ := filmed_tallies hr h ht hooks c
  simp only [run, Region.interrupted_eq_filmed, Watch.relabel, hdone]
  rw [givenBack, List.countP_append, List.countP_singleton]
  exact ⟨hs, htally⟩

/-- **A whole run.** -/
theorem tallies_after (hr : r.Managed) (steps : List (Call × List (Hook Call)))
    (h : m.Sound r.geometry.baseLevel) (ht : m.Tallies [] k) :
    (r.after steps m).Sound r.geometry.baseLevel ∧
      (r.after steps m).Tallies [] (k + r.completed steps m) := by
  induction steps generalizing m k with
  | nil => exact ⟨h, ht⟩
  | cons step rest ih =>
    obtain ⟨c, hooks⟩ := step
    obtain ⟨hs, htally⟩ := tallies_interrupted hr h ht c hooks
    have hend := ih hs htally
    rw [Nat.add_assoc] at hend
    exact hend

/-- **The counters are always right.**  In a run of calls, each interrupted at its reports by calls
that nobody interrupts, they count the recorded blocks and the one that is being given back, no
decrement and no sum ever wraps, and when nothing is in flight the bytes in use are those of the
recorded blocks. -/
theorem accounts_balanced {base size : Nat} {config : Config} {r : Region}
    (h : Region.of base size config = .ok r) (steps : List (Call × List (Hook Call))) (c : Call)
    (hooks : List (Hook Call)) :
    r.Audited (r.after steps (.blank _)) (r.completed steps (.blank _)) c hooks := by
  have hr := Region.managed_of h
  obtain ⟨hs, ht⟩ := tallies_after hr steps (Metadata.sound_blank _ _) (Metadata.tallies_blank _)
  rw [Nat.zero_add] at ht
  generalize r.after steps (.blank _) = m at hs ht ⊢
  generalize r.completed steps (.blank _) = k at ht ⊢
  obtain ⟨-, -, hdone, hwhole⟩ := filmed_tallies hr hs ht hooks c
  have hleaving : ∀ b ∈ r.leaving m c, b.order ≤ r.geometry.maxOrder := by
    intro b hb
    cases c with
    | alloc _ | allocLayout _ => cases hb
    | free address =>
      obtain ⟨n, hn, rfl⟩ := hs.mem_indexed_iff.mp (List.mem_of_find?_eq_some hb)
      exact hs.toListed.order_le hn
  refine
    { before := Metadata.Tallies.balanced hr hs.toListed ht nofun
      between := fun earlier p later he => ?_
      after := ?_
      discharges := ?_
      dischargesBetween := fun p hp => ?_ }
  · have hshot := hdone earlier p later he
    have hfits : ∀ b ∈ r.leaving m c, b.order ≤ r.geometry.maxOrder ∧ b.order < r.depth :=
      fun b hb => ⟨hleaving b hb, hwhole (by simp [he]) b hb⟩
    exact ⟨hshot.call, hshot.before.balanced hr hshot.sound.toListed hfits,
      hshot.after.balanced hr hshot.soundAfter.toListed hfits⟩
  · obtain ⟨hafter, htally⟩ := tallies_interrupted hr hs ht c hooks
    exact Metadata.Tallies.balanced hr hafter.toListed htally nofun
  · exact discharges_of_keeps hr [] (fun b => World.Tallied [b] k)
      (fun _ => treeBlind_tallied) (fun _ => keeps_tallied hr) (fun _ _ hw => ⟨_, hw.1⟩)
      (by simp) hs fun n hn => tallied_start (ht.withdraw hs hn) hooks
  · obtain ⟨earlier, later, he⟩ := List.append_of_mem (Array.mem_toList_iff.mpr hp)
    have hshot := hdone earlier p later he
    exact discharges_of_keeps hr (r.leaving m c).toList
      (fun b w => w.store.Tallies (b :: (r.leaving m c).toList) _) (fun _ _ f hw => hw.mapTree f)
      (fun _ => keeps_silent _) (fun _ _ hw => ⟨_, hw⟩)
      (by cases r.leaving m c <;> simp) hshot.sound fun n hn => hshot.before.withdraw hshot.sound hn

/-- A granule is given back, and while its release is on its way up it is taken again. -/
theorem accounts_balanced_of_reuse :
    let r : Region := ⟨4096, ⟨1, 3, 0⟩⟩
    let steps : List (Call × List (Hook Call)) := [(.alloc 1, []), (.alloc 4, []), (.free 4100, [])]
    let m := r.after steps (.blank _)
    let hooks : List (Hook Call) := [⟨.coalesced, 1, [.alloc 1]⟩]
    Region.of 4096 8 ⟨1, 3⟩ = .ok r ∧ r.completed steps (.blank _) = 1 ∧
      (r.interrupted (.free 4096) hooks m).2.1.done.size = 1 ∧
      r.leaving m (.free 4096) = some ⟨0, 0⟩ ∧
      r.Audited m (r.completed steps (.blank _)) (.free 4096) hooks := by
  intro r steps m hooks
  have h : Region.of 4096 8 ⟨1, 3⟩ = .ok r := rfl
  exact ⟨h, by decide +kernel, by decide +kernel, by decide +kernel, accounts_balanced h _ _ _⟩

end Runs

end BuddyTree
