/-
# How large a boot arena has to be

An allocator that is brought up out of an untouched arena asks it for two pieces of memory.  The
tree comes first and begins where the arena does.  The leaf index begins at a multiple of four, so
behind the tree some bytes may be lost, at most three; how many depends on where the arena begins
and where the tree ends in it.

The main facts: `Padding.lt` and `Padding.eq_zero_iff` (how much is lost),
`Arena.supply_eq_of_padding` (a request to an arena as an equation), `Allocator.broughtUp_create`
(what becomes of an allocator in each of three cases), and `create_in_arena` (how much room is
enough).
-/
import BuddyTree.Proofs.Arenas
import BuddyTree.Proofs.Construction

namespace BuddyTree

/-! ## 1. Padding -/

/-- The next multiple of `align` from `n` on begins `pad` bytes later, and no multiple before. -/
structure Padding (align n pad : Nat) : Prop where
  dvd : align ∣ n + pad
  least : ∀ p, align ∣ n + p → pad ≤ p

namespace Padding

variable {align n pad : Nat}

theorem firstMultiple (h : Padding align n pad) : FirstMultiple align n (n + pad) where
  dvd := h.dvd
  le := Nat.le_add_right n pad
  least k hk hle := by
    have := h.least (k - n) (by rwa [Nat.add_sub_cancel' hle])
    omega

theorem of_roundUp (h : 0 < align) (n : Nat) : Padding align n (roundUp n align - n) where
  dvd := by
    rw [Nat.add_sub_cancel' (le_roundUp h)]
    exact dvd_roundUp n align
  least p hp := by
    have := (roundUp_le_iff h hp).mpr (Nat.le_add_right n p)
    omega

theorem eq (h : Padding align n pad) {pad' : Nat} (h' : Padding align n pad') : pad = pad' :=
  Nat.le_antisymm (h.least _ h'.dvd) (h'.least _ h.dvd)

/-- **Less than the alignment** is lost, -/
theorem lt (halign : 0 < align) (h : Padding align n pad) : pad < align := by
  have hle : roundUp n align ≤ n + (align - 1) := Nat.div_mul_le_self _ _
  have := h.eq (of_roundUp halign n)
  omega

/-- **and nothing** exactly at a multiple. -/
theorem eq_zero_iff (h : Padding align n pad) : pad = 0 ↔ align ∣ n := by
  constructor
  · rintro rfl
    exact h.dvd
  · exact fun hdvd => Nat.le_zero.mp (h.least 0 hdvd)

theorem one (n : Nat) : Padding 1 n 0 :=
  ⟨Nat.one_dvd _, fun _ _ => Nat.zero_le _⟩

end Padding

/-! ## 2. Two requests -/

/-- **A request to an arena,** as an equation: it is granted if what is lost and what is asked for
fit into the rest. -/
theorem Arena.supply_eq_of_padding {a : Arena} {r : Request} {pad : Nat}
    (hstop : a.stop < addressLimit) (halign : 0 < r.align) (hpad : Padding r.align a.next pad)
    (fill : UInt8) :
    (Source.arena fill).supply a r =
      if a.next + pad + r.bytes ≤ a.stop then
        (some ⟨a.next + pad, fun _ => fill⟩, { a with next := a.next + pad + r.bytes })
      else (none, a) := by
  split
  · next hle => exact supply_of_roomAt hstop ⟨halign, hpad.firstMultiple, hle⟩
  · next hnot =>
    refine supply_of_not_roomAt hstop fun address hroom => hnot ?_
    have hle := hpad.firstMultiple.least address hroom.first.dvd hroom.first.le
    exact Nat.le_trans (Nat.add_le_add_right hle _) hroom.end_le

/-- The same request, with a meter around the arena. -/
theorem Arena.supply_metered_of_padding {stop next pad : Nat} {r : Request}
    (hstop : stop < addressLimit) (halign : 0 < r.align) (hpad : Padding r.align next pad)
    (fill : UInt8) (start : Nat) (calls : List (Request × Option Nat)) :
    (Source.metered (fun _ _ => false) (Source.arena fill)).supply ⟨⟨start, stop, next⟩, calls⟩ r =
      if next + pad + r.bytes ≤ stop then
        (some ⟨next + pad, fun _ => fill⟩,
          ⟨⟨start, stop, next + pad + r.bytes⟩, calls ++ [(r, some (next + pad))]⟩)
      else (none, ⟨⟨start, stop, next⟩, calls ++ [(r, none)]⟩) := by
  have hsupply := supply_eq_of_padding (a := ⟨start, stop, next⟩) hstop halign hpad fill
  simp only [Source.metered, hsupply, Bool.false_eq_true, if_false]
  split <;> rfl

/-! ## 3. The three cases -/

namespace Allocator

variable {base size : Nat} {config : Config} {r : Region} {start length pad : Nat}

/-- What becomes of an allocator that is brought up out of an arena: the answer, what is used of the
arena, and what was asked for and granted. -/
inductive BroughtUp (r : Region) (size start length pad : Nat) :
    Except InitError (Allocator × List Record) → Nat → List (Request × Option Nat) → Prop where
  /-- The tree is larger than the arena. -/
  | noTree (short : length < r.geometry.treeBytes) :
      BroughtUp r size start length pad (.error (.backing .tree r.geometry.treeBytes)) 0
        [(r.geometry.treeRequest, none)]
  /-- There is room for the tree, and behind it none for the index. -/
  | noIndex (room : r.geometry.treeBytes ≤ length)
      (short : length < r.geometry.treeBytes + pad + r.geometry.indexBytes) :
      BroughtUp r size start length pad (.error (.backing .index r.geometry.indexBytes))
        r.geometry.treeBytes
        [(r.geometry.treeRequest, some start), (r.geometry.indexRequest, none)]
  /-- There is room for both. -/
  | both (room : r.geometry.treeBytes + pad + r.geometry.indexBytes ≤ length) :
      BroughtUp r size start length pad (.ok (.fresh r, welcome r size))
        (r.geometry.treeBytes + pad + r.geometry.indexBytes)
        [(r.geometry.treeRequest, some start),
          (r.geometry.indexRequest, some (start + r.geometry.treeBytes + pad))]

/-- **Brought up out of an arena.** -/
theorem broughtUp_create (h : Region.of base size config = .ok r)
    (hstop : start + length < addressLimit) (hpad : Padding 4 (start + r.geometry.treeBytes) pad)
    (fill : UInt8) :
    let metered := Source.metered (fun _ _ => false) (Source.arena fill)
    let outcome := create metered base size config (.start (.ofLength start length))
    BroughtUp r size start length pad outcome.1 outcome.2.inner.used outcome.2.calls := by
  intro metered outcome
  have hused : ∀ {next bytes}, next = start + bytes →
      (⟨start, start + length, next⟩ : Arena).used = bytes := fun h => by
    rw [Arena.used, h, Nat.add_sub_cancel_left]
  have htree := Arena.supply_metered_of_padding (r := r.geometry.treeRequest) hstop Nat.one_pos
    (Padding.one start) fill start []
  by_cases hroom : r.geometry.treeBytes ≤ length
  · have hgranted : metered.supply (.start (.ofLength start length)) r.geometry.treeRequest =
        (some ⟨start, fun _ => fill⟩, ⟨⟨start, start + length, start + r.geometry.treeBytes⟩,
          [(r.geometry.treeRequest, some start)]⟩) :=
      htree.trans (if_pos (Nat.add_le_add_left hroom start))
    have hcreate : outcome = _ := create_of_granted_tree h hgranted
    have hindex := Arena.supply_metered_of_padding (r := r.geometry.indexRequest) hstop
      (Nat.zero_lt_succ 3) hpad fill start [(r.geometry.treeRequest, some start)]
    have hsum : start + r.geometry.treeBytes + pad + r.geometry.indexBytes =
        start + (r.geometry.treeBytes + pad + r.geometry.indexBytes) := by omega
    by_cases hboth : r.geometry.treeBytes + pad + r.geometry.indexBytes ≤ length
    · rw [hcreate, hindex.trans (if_pos (hsum ▸ Nat.add_le_add_left hboth start))]
      exact (hused hsum).symm ▸ .both hboth
    · have hnot : ¬ start + r.geometry.treeBytes + pad + r.geometry.indexBytes ≤ start + length :=
        by omega
      rw [hcreate, hindex.trans (if_neg hnot)]
      exact (hused rfl).symm ▸ .noIndex hroom (Nat.not_le.mp hboth)
  · have hrefused := htree.trans (if_neg fun hle => hroom (Nat.le_of_add_le_add_left hle))
    have hcreate : outcome = _ := create_of_refused_tree h hrefused
    rw [hcreate]
    exact (hused (Nat.add_zero start).symm).symm ▸ .noTree (Nat.not_le.mp hroom)

variable {answer : Except InitError (Allocator × List Record)} {used : Nat}
  {calls : List (Request × Option Nat)}

/-- There is an allocator exactly if there is room for both pieces and what is lost between them. -/
theorem BroughtUp.ok_iff (h : BroughtUp r size start length pad answer used calls) :
    (∃ made, answer = .ok made) ↔
      r.geometry.treeBytes + pad + r.geometry.indexBytes ≤ length := by
  cases h with
  | noTree short => exact iff_of_false nofun (by omega)
  | noIndex _ short => exact iff_of_false nofun (Nat.not_le.mpr short)
  | both room => exact iff_of_true ⟨_, rfl⟩ room

theorem BroughtUp.of_ok {made : Allocator × List Record}
    (h : BroughtUp r size start length pad (.ok made) used calls) :
    used = r.geometry.treeBytes + pad + r.geometry.indexBytes ∧
      calls = [(r.geometry.treeRequest, some start),
        (r.geometry.indexRequest, some (start + r.geometry.treeBytes + pad))] := by
  cases h with
  | both => exact ⟨rfl, rfl⟩

theorem BroughtUp.of_error {e : InitError}
    (h : BroughtUp r size start length pad (.error e) used calls) :
    (e = .backing .tree r.geometry.treeBytes ∧ used = 0) ∨
      (e = .backing .index r.geometry.indexBytes ∧ used = r.geometry.treeBytes) := by
  cases h with
  | noTree => exact .inl ⟨rfl, rfl⟩
  | noIndex => exact .inr ⟨rfl, rfl⟩

end Allocator

/-! ## 4. How large it has to be -/

/-- **An allocator out of an arena.**  It is brought up exactly if the arena has room for the tree,
the padding behind it and the leaf index.  Three bytes more than the two pieces have are always
enough; no byte more is enough exactly if the tree ends at a multiple of four.  If it is brought up,
that much is used, and the two pieces lie in the arena one behind the other.  If not, either the
tree was refused and nothing is used, or the index was and the tree is used. -/
theorem create_in_arena {base size : Nat} {config : Config} {r : Region}
    (h : Region.of base size config = .ok r) {start length : Nat} (hstart : 0 < start)
    (hstop : start + length < addressLimit) (fill : UInt8) :
    let g := r.geometry
    let arena := Arena.ofLength start length
    let answer := Allocator.create (Source.arena fill) base size config arena
    let metered := Source.metered (fun _ _ => false) (Source.arena fill)
    let calls := (Allocator.create metered base size config (.start arena)).2.calls
    ∃ pad, Padding 4 (start + g.treeBytes) pad ∧
      ((∃ made, answer.1 = .ok made) ↔ g.treeBytes + pad + g.indexBytes ≤ length) ∧
      (g.treeBytes + g.indexBytes + 3 ≤ length → ∃ made, answer.1 = .ok made) ∧
      (length = g.treeBytes + g.indexBytes →
        ((∃ made, answer.1 = .ok made) ↔ 4 ∣ start + g.treeBytes)) ∧
      (∀ made, answer.1 = .ok made → answer.2.used = g.treeBytes + pad + g.indexBytes ∧
        ∃ tree index, calls = [(g.treeRequest, some tree), (g.indexRequest, some index)] ∧
          0 < tree ∧ start ≤ tree ∧ tree + g.treeBytes ≤ index ∧
          index + g.indexBytes ≤ start + length) ∧
      ∀ e, answer.1 = .error e →
        (e = .backing .tree g.treeBytes ∧ answer.2.used = 0) ∨
        (e = .backing .index g.indexBytes ∧ answer.2.used = g.treeBytes) := by
  intro g arena answer metered calls
  obtain ⟨pad, hpad⟩ : ∃ pad, Padding 4 (start + g.treeBytes) pad :=
    ⟨_, .of_roundUp (Nat.zero_lt_succ 3) _⟩
  have hanswer : answer = ((Allocator.create metered base size config (.start arena)).1,
      (Allocator.create metered base size config (.start arena)).2.inner) :=
    Allocator.create_metered (.start arena)
  have hcases : Allocator.BroughtUp r size start length pad answer.1 answer.2.used calls := by
    rw [hanswer]
    exact Allocator.broughtUp_create h hstop hpad fill
  have hok : (∃ made, answer.1 = .ok made) ↔ g.treeBytes + pad + g.indexBytes ≤ length :=
    hcases.ok_iff
  have hlt := hpad.lt (Nat.zero_lt_succ 3)
  have hzero := hpad.eq_zero_iff
  refine ⟨pad, hpad, hok, fun hle => hok.mpr (by omega), fun heq => ?_, fun made hmade => ?_,
    fun e he => ?_⟩
  · rw [hok, ← hzero]
    omega
  · have hroom := hok.mp ⟨made, hmade⟩
    rw [hmade] at hcases
    obtain ⟨hused, hcalls⟩ := hcases.of_ok
    exact ⟨hused, start, start + g.treeBytes + pad, hcalls, hstart, Nat.le_refl _,
      Nat.le_add_right _ _, by omega⟩
  · rw [he] at hcases
    exact hcases.of_error

/-- One granule, and an arena that begins at a multiple of four.  The tree of a granule has two
bytes, so two more are lost behind it, and room for the tree and the index alone is not enough. -/
theorem create_in_arena_of_granule :
    let r : Region := ⟨4096, ⟨4096, 0, 0⟩⟩
    let answer := fun length =>
      Allocator.create (Source.arena 0xff) 4096 4096 ⟨4096, 9⟩ (.ofLength 65536 length)
    Region.of 4096 4096 ⟨4096, 9⟩ = .ok r ∧ r.geometry.treeBytes = 2 ∧ r.geometry.indexBytes = 4 ∧
      ¬ (∃ made, (answer 6).1 = .ok made) ∧ (answer 6).2.used = 2 ∧
      (∃ made, (answer 8).1 = .ok made) ∧ (answer 8).2.used = 8 := by
  intro r answer
  have hr : Region.of 4096 4096 ⟨4096, 9⟩ = .ok r := rfl
  have hend : 65536 + 8 < addressLimit := by decide
  have hnot : ¬ 4 ∣ 65536 + r.geometry.treeBytes := by decide
  obtain ⟨-, -, -, -, htight, -⟩ := create_in_arena hr (Nat.zero_lt_succ 65535)
    (Nat.lt_of_le_of_lt (by decide : 65536 + 6 ≤ 65536 + 8) hend) 0xff
  obtain ⟨pad, hpad, hok, -, -, hused, -⟩ :=
    create_in_arena hr (Nat.zero_lt_succ 65535) hend 0xff
  have hpad2 : pad = 2 := hpad.eq ⟨by decide, fun p hp => by
    change 4 ∣ 65538 + p at hp
    omega⟩
  subst hpad2
  obtain ⟨made, hmade⟩ := hok.mpr (by decide)
  exact ⟨hr, rfl, rfl, fun h => hnot ((htight rfl).mp h), by decide +kernel, ⟨made, hmade⟩,
    (hused made hmade).1⟩

end BuddyTree
