/-
# Trees that fit their blocks

A tree *fits* a set of blocks and a record of what is `below` each half of a node, if every block
is busy and every other node is occupied on a side exactly if something is below there or a
release is announced there, and never both.  So the flags of a fitting tree are determined by its
blocks, by what is below, and by its announcements.

Each change that the allocator makes to a tree changes one of the three.  A claim adds a block, a
mark adds to what is below, an announcement takes the same thing away again, and a merge only
withdraws an announcement.

The main facts follow the climbs: `fits_markPath` (a claim is marked in every ancestor, up to the
block that refuses it), `fits_announce` (after the first climb of a release nothing counts the
node any more), and `Fits.merge_step` (no merge loses a mark that a block needs).
-/
import BuddyTree.Claim
import BuddyTree.Proofs.Ancestry

namespace BuddyTree

/-! ## 1. Bytes without unused bits -/

namespace Status

/-- None of the three unused bits is set. -/
def Plain (s : Status) : Prop := ∀ i, 5 ≤ i → s.byte.toBitVec.getLsbD i = false

theorem plain_clear : clear.Plain := by
  intro i _
  simp [clear]

theorem plain_busy : busy.Plain := by
  intro i hi
  by_cases h : i < 8
  · have : i = 5 ∨ i = 6 ∨ i = 7 := by omega
    rcases this with rfl | rfl | rfl <;> rfl
  · exact BitVec.getLsbD_of_ge _ _ (by omega)

theorem Plain.insert {s : Status} (h : s.Plain) (f : Flag) : (s.insert f).Plain := by
  intro i hi
  have := f.bit_lt
  rw [Status.insert, UInt8.toBitVec_or, BitVec.getLsbD_or, h i hi, Flag.mask_getLsbD,
    Bool.false_or, decide_eq_false_iff_not]
  omega

theorem Plain.erase {s : Status} (h : s.Plain) (f : Flag) : (s.erase f).Plain := by
  intro i hi
  rw [Status.erase, UInt8.toBitVec_and, BitVec.getLsbD_and, h i hi, Bool.false_and]

theorem Plain.mark {s : Status} (h : s.Plain) (c : Side) : (s.mark c).Plain :=
  h.insert _

theorem Plain.unmark {s : Status} (h : s.Plain) (c : Side) : (s.unmark c).Plain :=
  (h.erase _).erase _

theorem Plain.announce {s : Status} (h : s.Plain) (c : Side) : (s.announce c).Plain :=
  h.insert _

theorem Plain.withdraw {s : Status} (h : s.Plain) (c : Side) : (s.withdraw c).Plain :=
  h.erase _

/-- Without unused bits a byte is its flags. -/
theorem Plain.ext {s t : Status} (hs : s.Plain) (ht : t.Plain) (h : ∀ f, s.has f = t.has f) :
    s = t :=
  ext_has h fun i hi => by rw [hs i hi, ht i hi]

/-! ### Flags of one side -/

@[simp] theorem isOccupied_clear (c : Side) : clear.isOccupied c = false :=
  has_clear _

@[simp] theorem isCoalescing_clear (c : Side) : clear.isCoalescing c = false :=
  has_clear _

@[simp] theorem isCoalescing_busy (c : Side) : busy.isCoalescing c = false := by
  cases c <;> rfl

@[simp] theorem has_busy_block : busy.has .block = true := rfl

theorem isFree_busy : busy.isFree = false := rfl

variable (s : Status) (c e : Side)

@[simp] theorem isOccupied_mark : (s.mark c).isOccupied e = (s.isOccupied e || decide (e = c)) := by
  simp [isOccupied]

@[simp] theorem isCoalescing_mark : (s.mark c).isCoalescing e = s.isCoalescing e := by
  simp [isCoalescing]

@[simp] theorem isOccupied_withdraw : (s.withdraw c).isOccupied e = s.isOccupied e := by
  simp [isOccupied]

@[simp] theorem isCoalescing_withdraw :
    (s.withdraw c).isCoalescing e = (s.isCoalescing e && !decide (e = c)) := by
  simp [isCoalescing]

@[simp] theorem isOccupied_announce : (s.announce c).isOccupied e = s.isOccupied e := by
  simp [isOccupied]

@[simp] theorem isCoalescing_announce :
    (s.announce c).isCoalescing e = (s.isCoalescing e || decide (e = c)) := by
  simp [isCoalescing]

@[simp] theorem isOccupied_unmark :
    (s.unmark c).isOccupied e = (s.isOccupied e && !decide (e = c)) := by
  simp [isOccupied]

@[simp] theorem isCoalescing_unmark :
    (s.unmark c).isCoalescing e = (s.isCoalescing e && !decide (e = c)) := by
  simp [isCoalescing]

end Status

/-! ## 2. Fitting -/

variable {d : Nat}

/-- The flags of the tree say which nodes are blocks and in which halves something is below. -/
structure Tree.Fits (t : Tree d) (top : Nat) (blocks : Node d → Prop)
    (below : Node d → Side → Prop) : Prop where
  busy : ∀ {n}, blocks n → t.get n = .busy
  vacant : ∀ {n}, ¬ blocks n → (t.get n).has .block = false
  occupied : ∀ {n}, ¬ blocks n → top ≤ n.level → ∀ s,
    ((t.get n).isOccupied s = true ↔ below n s ∨ (t.get n).isCoalescing s = true)
  settled : ∀ {n s}, below n s → (t.get n).isCoalescing s = false
  above : ∀ {n}, n.level < top → t.get n = .clear
  leaf : ∀ {n}, ¬ blocks n → n.level = d → t.get n = .clear
  plain : ∀ n, (t.get n).Plain
  spare : t.slots[0]? = some .clear

/-- No node is the unused slot. -/
@[simp] theorem Tree.spare_set (t : Tree d) (n : Node d) (s : Status) :
    (t.set n s).slots[0]? = t.slots[0]? :=
  Vector.getElem?_set_ne n.lt (Nat.ne_of_gt n.pos)

namespace Tree.Fits

variable {t : Tree d} {top : Nat} {blocks : Node d → Prop} {below below' : Node d → Side → Prop}

/-- Only what is below nodes from the top level on counts. -/
theorem congr (h : t.Fits top blocks below)
    (he : ∀ n s, top ≤ n.level → (below n s ↔ below' n s)) : t.Fits top blocks below' where
  busy := h.busy
  vacant := h.vacant
  occupied := by
    intro n hn hl s
    rw [← he n s hl]
    exact h.occupied hn hl s
  settled := by
    intro n s hs
    by_cases hl : top ≤ n.level
    · exact h.settled ((he n s hl).mpr hs)
    · simp [h.above (n := n) (by omega)]
  above := h.above
  leaf := h.leaf
  plain := h.plain
  spare := h.spare

theorem congr_blocks {blocks' : Node d → Prop} (h : t.Fits top blocks below)
    (he : ∀ n, blocks n ↔ blocks' n) : t.Fits top blocks' below := by
  obtain rfl : blocks = blocks' := funext fun n => propext (he n)
  exact h

theorem has_block_iff (h : t.Fits top blocks below) {n : Node d} :
    (t.get n).has .block = true ↔ blocks n := by
  by_cases hn : blocks n
  · simp [h.busy hn, hn]
  · simp [h.vacant hn, hn]

/-- Where a release is announced is no block, and nothing is below there. -/
theorem of_isCoalescing (h : t.Fits top blocks below) {n : Node d} {s : Side}
    (hc : (t.get n).isCoalescing s = true) :
    ¬ blocks n ∧ top ≤ n.level ∧ n.level < d ∧ ¬ below n s := by
  have hb : ¬ blocks n := fun hn => by simp [h.busy hn] at hc
  refine ⟨hb, ?_, ?_, fun hn => by simp [h.settled hn] at hc⟩
  · by_cases hl : n.level < top
    · simp [h.above hl] at hc
    · omega
  · by_cases hl : n.level = d
    · simp [h.leaf hb hl] at hc
    · have := n.level_le
      omega

/-- An occupied side that coalesces no more has something below. -/
theorem below_iff (h : t.Fits top blocks below) {n : Node d} (hb : ¬ blocks n)
    (hl : top ≤ n.level) (s : Side) :
    below n s ↔ (t.get n).isOccupied s = true ∧ (t.get n).isCoalescing s = false := by
  have ho := h.occupied hb hl s
  constructor
  · exact fun hn => ⟨ho.mpr (.inl hn), h.settled hn⟩
  · rintro ⟨h1, h2⟩
    rcases ho.mp h1 with hn | hc
    · exact hn
    · simp [h2] at hc

/-- A node with a clear byte is no block, and nothing is below it. -/
theorem of_clear (h : t.Fits top blocks below) {n : Node d} (hn : t.get n = .clear)
    (hl : top ≤ n.level) : ¬ blocks n ∧ ∀ s, ¬ below n s := by
  have hb : ¬ blocks n := fun hb => by
    have := h.busy hb
    rw [hn] at this
    exact absurd this (by decide)
  refine ⟨hb, fun s hs => ?_⟩
  have := ((h.below_iff hb hl s).mp hs).1
  simp [hn] at this

/-! ### The changes of one node -/

/-- A claim turns a node into a block. -/
theorem claim (h : t.Fits top blocks below) {n : Node d} (hl : top ≤ n.level) :
    (t.set n .busy).Fits top (fun a => blocks a ∨ a = n) below where
  busy := by
    intro a ha
    rw [get_set]
    split
    · rfl
    · next hne => exact h.busy (ha.resolve_right (fun he => hne he.symm))
  vacant := by
    intro a ha
    rw [get_set_ne _ (fun he => ha (.inr he.symm))]
    exact h.vacant fun hb => ha (.inl hb)
  occupied := by
    intro a ha hla s
    rw [get_set_ne _ (fun he => ha (.inr he.symm))]
    exact h.occupied (fun hb => ha (.inl hb)) hla s
  settled := by
    intro a s hs
    rw [get_set]
    split
    · exact Status.isCoalescing_busy s
    · exact h.settled hs
  above := by
    intro a ha
    rw [get_set_ne _ (fun he => by rw [← he] at ha; omega)]
    exact h.above ha
  leaf := by
    intro a ha hla
    rw [get_set_ne _ (fun he => ha (.inr he.symm))]
    exact h.leaf (fun hb => ha (.inl hb)) hla
  plain := by
    intro a
    rw [get_set]
    split
    · exact Status.plain_busy
    · exact h.plain a
  spare := (t.spare_set n _).trans h.spare

/-- A block below which nothing is can be cleared. -/
theorem clear {n : Node d} (h : t.Fits top (fun a => blocks a ∨ a = n) below)
    (hn : ¬ blocks n) (hb : ∀ s, ¬ below n s) : (t.set n .clear).Fits top blocks below where
  busy := by
    intro a ha
    have hne : n ≠ a := fun he => hn (he ▸ ha)
    rw [get_set_ne _ hne]
    exact h.busy (.inl ha)
  vacant := by
    intro a ha
    rw [get_set]
    split
    · exact Status.has_clear _
    · next hne => exact h.vacant (fun hb => hb.elim ha (fun he => hne he.symm))
  occupied := by
    intro a ha hla s
    rw [get_set]
    split
    · next he =>
      subst he
      simp [hb s]
    · next hne => exact h.occupied (fun hb => hb.elim ha (fun he => hne he.symm)) hla s
  settled := by
    intro a s hs
    rw [get_set]
    split
    · exact Status.isCoalescing_clear s
    · exact h.settled hs
  above := by
    intro a ha
    rw [get_set]
    split
    · rfl
    · exact h.above ha
  leaf := by
    intro a ha hla
    rw [get_set]
    split
    · rfl
    · next hne => exact h.leaf (fun hb => hb.elim ha (fun he => hne he.symm)) hla
  plain := by
    intro a
    rw [get_set]
    split
    · exact Status.plain_clear
    · exact h.plain a
  spare := (t.spare_set n _).trans h.spare

/-- Another status for an inner node that is no block fits, if it has no block flag and its two
sides agree with what is below now. -/
theorem track (h : t.Fits top blocks below) {n : Node d} {v : Status} (hn : ¬ blocks n)
    (hl : top ≤ n.level) (hd : n.level < d) (hv : v.has .block = false) (hp : v.Plain)
    (hne : ∀ {a : Node d} {s : Side}, a ≠ n → (below' a s ↔ below a s))
    (hocc : ∀ s, v.isOccupied s = true ↔ below' n s ∨ v.isCoalescing s = true)
    (hset : ∀ s, below' n s → v.isCoalescing s = false) :
    (t.set n v).Fits top blocks below' where
  busy := by
    intro a ha
    have hne : n ≠ a := fun he => hn (he ▸ ha)
    rw [get_set_ne _ hne]
    exact h.busy ha
  vacant := by
    intro a ha
    rw [get_set]
    split
    · exact hv
    · exact h.vacant ha
  occupied := by
    intro a ha hla s
    rw [get_set]
    split
    · next he => exact he ▸ hocc s
    · next he => rw [hne (fun e => he e.symm)]; exact h.occupied ha hla s
  settled := by
    intro a s hs
    rw [get_set]
    split
    · next he => exact hset s (he ▸ hs)
    · next he => exact h.settled ((hne (fun e => he e.symm)).mp hs)
  above := by
    intro a ha
    rw [get_set_ne _ (fun he => by rw [← he] at ha; omega)]
    exact h.above ha
  leaf := by
    intro a ha hla
    rw [get_set_ne _ (fun he => by rw [← he] at hla; omega)]
    exact h.leaf ha hla
  plain := by
    intro a
    rw [get_set]
    split
    · exact hp
    · exact h.plain a
  spare := (t.spare_set n _).trans h.spare

/-- A mark adds one half to what is below. -/
theorem mark (h : t.Fits top blocks below) {n : Node d} {c : Side} (hn : ¬ blocks n)
    (hl : top ≤ n.level) (hd : n.level < d) :
    (t.set n (((t.get n).withdraw c).mark c)).Fits top blocks
      (fun a s => below a s ∨ (a = n ∧ s = c)) := by
  refine h.track hn hl hd ?_ (((h.plain n).withdraw c).mark c) ?_ ?_ ?_
  · simp [h.vacant hn]
  · intro a s ha
    simp [ha]
  · intro s
    have := h.occupied hn hl s
    by_cases hs : s = c <;> simp [hs, this]
  · rintro s (hs | ⟨-, rfl⟩)
    · simp [h.settled hs]
    · simp

/-- An announcement takes one half away from what is below. -/
theorem announce (h : t.Fits top blocks below) {n : Node d} {c : Side} (hn : ¬ blocks n)
    (hl : top ≤ n.level) (hd : n.level < d) (hc : below n c) :
    (t.set n ((t.get n).announce c)).Fits top blocks
      (fun a s => below a s ∧ ¬ (a = n ∧ s = c)) := by
  refine h.track hn hl hd ?_ ((h.plain n).announce c) ?_ ?_ ?_
  · simp [h.vacant hn]
  · intro a s ha
    simp [ha]
  · intro s
    have := h.occupied hn hl s
    by_cases hs : s = c
    · simp [hs, (h.occupied hn hl c).mpr (.inl hc)]
    · simp [hs, this]
  · rintro s ⟨hs, hne⟩
    have : s ≠ c := fun he => hne ⟨rfl, he⟩
    simp [h.settled hs, this]

/-- **A merge loses no mark that is needed.**  It withdraws an announcement and changes nothing of
what is below. -/
theorem merge_step (h : t.Fits top blocks below) {n : Node d} {c : Side}
    (hc : (t.get n).isCoalescing c = true) :
    (t.set n ((t.get n).unmark c)).Fits top blocks below := by
  obtain ⟨hn, hl, hd, hb⟩ := h.of_isCoalescing hc
  refine h.track hn hl hd ?_ ((h.plain n).unmark c) (fun _ => Iff.rfl) ?_ ?_
  · simp [h.vacant hn]
  · intro s
    have := h.occupied hn hl s
    by_cases hs : s = c
    · simp [hs, hb]
    · simp [hs, this]
  · intro s hs
    simp [h.settled hs]

end Tree.Fits

/-! ## 3. What lies below

Two things can lie below a half of a node: live blocks, and a single node that is being claimed or
released and is accounted for in its ancestors from some level on. -/

/-- One of the live nodes lies in that half of `a`. -/
def Houses (live : Node d → Prop) (a : Node d) (s : Side) : Prop := ∃ b, live b ∧ b.InHalf a s

/-- Node `n` lies in that half of `a`, and `a` is no higher than level `bound`. -/
def Held (n : Node d) (bound : Nat) (a : Node d) (s : Side) : Prop := n.InHalf a s ∧ bound ≤ a.level

theorem not_held_of_level_le {n : Node d} {bound : Nat} (h : n.level ≤ bound) (a : Node d)
    (s : Side) : ¬ Held n bound a s := by
  rintro ⟨hn, hb⟩
  have := hn.level_lt
  omega

theorem Houses.mono {live live' : Node d → Prop} (h : ∀ b, live b → live' b) {a : Node d}
    {s : Side} (ha : Houses live a s) : Houses live' a s := by
  obtain ⟨b, hb, hin⟩ := ha
  exact ⟨b, h b hb, hin⟩

/-- What lies below a node lies below every half that the node lies in. -/
theorem Houses.trans {live : Node d → Prop} {a p : Node d} {s c : Side} (h : Houses live p c)
    (hp : p.InHalf a s) : Houses live a s := by
  obtain ⟨b, hb, hin⟩ := h
  exact ⟨b, hb, hin.trans hp⟩

/-- A node that joins the live ones lies below all its ancestors. -/
theorem houses_or_eq {live : Node d → Prop} {n a : Node d} {s : Side} :
    Houses (fun b => live b ∨ b = n) a s ↔ Houses live a s ∨ n.InHalf a s := by
  constructor
  · rintro ⟨b, hb | rfl, hin⟩
    · exact .inl ⟨b, hb, hin⟩
    · exact .inr hin
  · rintro (⟨b, hb, hin⟩ | hin)
    · exact ⟨b, .inl hb, hin⟩
    · exact ⟨n, .inr rfl, hin⟩

/-- What lies within a node that is not live itself lies in one of its halves. -/
theorem exists_within_iff {live : Node d → Prop} {a : Node d} (ha : ¬ live a) :
    (∃ b, live b ∧ b.Within a) ↔ ∃ s, Houses live a s := by
  simp only [Node.within_iff_eq_or_inHalf]
  constructor
  · rintro ⟨b, hb, rfl | ⟨s, hin⟩⟩
    · exact absurd hb ha
    · exact ⟨s, b, hb, hin⟩
  · rintro ⟨s, b, hb, hin⟩
    exact ⟨b, hb, .inr ⟨s, hin⟩⟩

/-! ## 4. Climbs -/

namespace Tree

variable {top : Nat} {blocks live : Node d → Prop} {below : Node d → Side → Prop}

/-- **Marking a claim.**  The marks of a claim of `n` go on from its ancestor `x` for `k` levels.
If nothing refuses them, `n` counts in all its ancestors up to there, and none of them is a block;
otherwise it counts up to the block that refused it, which is the first one on the way. -/
theorem fits_markPath {t : Tree d} {n x : Node d} {k : Nat} (hx : n.Within x)
    (hk : k ≤ x.level) (htop : top ≤ x.level - k)
    (h : t.Fits top blocks fun a s => below a s ∨ Held n x.level a s) :
    (∀ t', t.markPath (x.climb k) = (none, t') →
      (t'.Fits top blocks fun a s => below a s ∨ Held n (x.level - k) a s) ∧
        ∀ a s, Held n (x.level - k) a s → a.level < x.level → ¬ blocks a) ∧
    (∀ o t', t.markPath (x.climb k) = (some o, t') →
      blocks o ∧ (∃ s, n.InHalf o s) ∧ o.level < x.level ∧ x.level - k ≤ o.level ∧
        (t'.Fits top blocks fun a s => below a s ∨ Held n (o.level + 1) a s) ∧
        ∀ a s, Held n (o.level + 1) a s → a.level < x.level → ¬ blocks a) := by
  induction k generalizing t x with
  | zero =>
    have hnil : t.markPath (x.climb 0) = (none, t) := rfl
    rw [hnil]
    refine ⟨?_, ?_⟩
    · rintro t' ⟨⟩
      exact ⟨h, fun a s ha hl => absurd ha.2 (by omega)⟩
    · rintro o t' ⟨⟩
  | succ k ih =>
    cases hp : x.parent? with
    | none =>
      have := Node.parent?_eq_none hp
      omega
    | some p =>
      have hlev := Node.level_parent? hp
      have hxp := Node.inHalf_parent? hp
      have hnp : n.InHalf p x.side := hx.inHalf hxp
      have hpd : p.level < d := by have := x.level_le; omega
      rw [Node.climb_succ hp]
      unfold markPath
      dsimp only
      by_cases hb : blocks p
      · rw [if_pos (h.has_block_iff.mpr hb)]
        refine ⟨?_, ?_⟩
        · rintro t' ⟨⟩
        · rintro o t' ⟨⟩
          rw [hlev]
          exact ⟨hb, ⟨_, hnp⟩, by omega, by omega, h,
            fun a s ha hl => absurd ha.2 (by omega)⟩
      · rw [if_neg (by rw [h.has_block_iff]; exact hb)]
        -- the mark at `p` is what it takes to count `n` up to the level of `p`
        have hmark : (t.set p (((t.get p).withdraw x.side).mark x.side)).Fits top blocks
            fun a s => below a s ∨ Held n p.level a s := by
          refine (h.mark hb (by omega) hpd).congr fun a s _ => ⟨?_, ?_⟩
          · rintro ((ha | ⟨hin, hl⟩) | ⟨rfl, rfl⟩)
            · exact .inl ha
            · exact .inr ⟨hin, by omega⟩
            · exact .inr ⟨hnp, Nat.le_refl _⟩
          · rintro (ha | ⟨hin, hl⟩)
            · exact .inl (.inl ha)
            · by_cases hal : x.level ≤ a.level
              · exact .inl (.inr ⟨hin, hal⟩)
              · obtain rfl : a = p :=
                  Node.Within.eq_of_level hin.within hnp.within (by omega)
                exact .inr ⟨rfl, hin.side_eq hnp⟩
        have ih' := ih hnp.within (by omega) (by omega) hmark
        rw [← Nat.add_sub_add_right p.level 1 k, hlev] at ih'
        -- the parent itself is no block either
        have hfree : ∀ {bound : Nat},
            (∀ a s, Held n bound a s → a.level < p.level → ¬ blocks a) →
            ∀ a s, Held n bound a s → a.level < x.level → ¬ blocks a := by
          intro bound hlow a s ha hl
          by_cases hal : a.level < p.level
          · exact hlow a s ha hal
          · obtain rfl : a = p :=
              Node.Within.eq_of_level ha.1.within hnp.within (by omega)
            exact hb
        refine ⟨fun t' he => ?_, fun o t' he => ?_⟩
        · obtain ⟨hfit, hlow⟩ := ih'.1 t' he
          exact ⟨hfit, hfree hlow⟩
        · obtain ⟨ho, hin, hol, hob, hfit, hlow⟩ := ih'.2 o t' he
          exact ⟨ho, hin, by omega, hob, hfit, hfree hlow⟩

/-- **The first climb of a release.**  Node `x` holds nothing live, and counts in its ancestors up
to level `bound`, none of which is a block.  After the climb it counts nowhere: where the climb
went, nothing else is below; and it stopped under an ancestor only because a live block in the
other half of that ancestor keeps everything above it occupied. -/
theorem fits_announce {t : Tree d} {x : Node d} {k bound : Nat} (hk : x.level = bound + k)
    (htop : top ≤ bound) (hlive : ∀ b, live b → blocks b)
    (hfree : ∀ a s, Held x bound a s → ¬ blocks a) (hnone : ∀ b, live b → ¬ b.Within x)
    (h : t.Fits top blocks fun a s => Houses live a s ∨ Held x bound a s) :
    (t.announce (x.climb k)).Fits top blocks (Houses live) := by
  induction k generalizing t x with
  | zero =>
    refine h.congr fun a s _ => ?_
    have : ¬ Held x bound a s := not_held_of_level_le (by omega) a s
    simp [this]
  | succ k ih =>
    cases hp : x.parent? with
    | none =>
      have := Node.parent?_eq_none hp
      omega
    | some p =>
      have hlev := Node.level_parent? hp
      have hxp := Node.inHalf_parent? hp
      have hpd : p.level < d := by have := x.level_le; omega
      have hheld : Held x bound p x.side := ⟨hxp, by omega⟩
      have hpb : ¬ blocks p := hfree p _ hheld
      have hempty : ¬ Houses live p x.side := by
        rintro ⟨b, hb, hin⟩
        exact hnone b hb ((Node.inHalf_parent?_iff hp).mp hin)
      -- the announcement at `p` takes `x` out of what is below `p`
      have hann : (t.set p ((t.get p).announce x.side)).Fits top blocks
          fun a s => Houses live a s ∨ Held p bound a s := by
        refine (h.announce hpb (by omega) hpd (.inr hheld)).congr fun a s _ => ⟨?_, ?_⟩
        · rintro ⟨ha | ⟨hin, hl⟩, hne⟩
          · exact .inl ha
          · rcases (Node.inHalf_iff_parent? hp).mp hin with he | hin
            · exact absurd he hne
            · exact .inr ⟨hin, hl⟩
        · rintro (ha | ⟨hin, hl⟩)
          · refine ⟨.inl ha, ?_⟩
            rintro ⟨rfl, rfl⟩
            exact hempty ha
          · refine ⟨.inr ⟨hxp.trans hin, hl⟩, ?_⟩
            rintro ⟨rfl, -⟩
            exact Node.not_inHalf_self _ _ hin
      have hstop : (((t.get p).isOccupied x.side.other && !(t.get p).isCoalescing x.side.other) =
          true) ↔ Houses live p x.side.other := by
        rw [Bool.and_eq_true, Bool.not_eq_true', ← h.below_iff hpb (by omega)]
        refine or_iff_left ?_
        rintro ⟨hin, -⟩
        exact Side.other_ne _ (hin.side_eq hxp)
      rw [Node.climb_succ hp]
      unfold announce
      dsimp only
      split
      · next hs =>
        refine hann.congr fun a s _ => or_iff_left_of_imp ?_
        rintro ⟨hin, -⟩
        exact (hstop.mp hs).trans hin
      · next hs =>
        refine ih (by omega) (fun a s ha => hfree a s ⟨hxp.trans ha.1, ha.2⟩) ?_ hann
        intro b hb hin
        rcases Node.within_iff_eq_or_inHalf.mp hin with rfl | ⟨s, hin⟩
        · exact hpb (hlive b hb)
        · rcases s.eq_or_eq_other x.side with rfl | rfl
          · exact hempty ⟨b, hb, hin⟩
          · exact hs (hstop.mpr ⟨b, hb, hin⟩)

end Tree

end BuddyTree
