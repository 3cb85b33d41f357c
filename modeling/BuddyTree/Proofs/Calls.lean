/-
# What calls keep

A region that can be managed at all has a tree whose node numbers fit the index, and its metadata
is sound in the beginning.  From there on every call keeps it sound, as long as those who come in
between do; and since the others make the same calls, they do.

The main facts: `steady_perform` (a call keeps soundness while the listener does),
`keeps_recorder` and `keeps_watching` (the listeners do), and `managed_of` (what a region gives).
-/
import BuddyTree.Proofs.Soundness

namespace BuddyTree

/-! ## 1. Regions -/

namespace Region

/-- What every region that can be managed gives. -/
structure Managed (r : Region) : Prop where
  base_pos : 0 < r.base
  granule : isPowerOfTwo r.geometry.minSize = true
  aligned : r.geometry.minSize ∣ r.base
  depth_le : r.depth ≤ maxDepth
  baseLevel_le : r.geometry.baseLevel ≤ r.depth
  fits : r.base + r.geometry.totalMemory ≤ addressLimit

theorem Managed.minSize_pos {r : Region} (h : r.Managed) : 0 < r.geometry.minSize := by
  obtain ⟨k, hk⟩ := isPowerOfTwo_iff.mp h.granule
  rw [hk]
  exact Nat.two_pow_pos k

/-- **The regions that are accepted.** -/
theorem of_eq_ok_iff {base size : Nat} {config : Config} {r : Region} :
    Region.of base size config = .ok r ↔
      base ≠ 0 ∧ Geometry.ofRegion size config = .ok r.geometry ∧
        base % r.geometry.minSize = 0 ∧ base + (r.geometry.totalMemory - 1) < addressLimit ∧
        r.base = base := by
  unfold Region.of
  split
  · next hbase => exact iff_of_false nofun fun h => h.1 hbase
  · next hbase =>
    cases Geometry.ofRegion size config with
    | error e => exact iff_of_false nofun fun h => nomatch h.2.1
    | ok g =>
      simp only [bind, Except.bind, isNone_checkedAdd?_iff]
      split
      · next hal =>
        refine iff_of_false nofun ?_
        rintro ⟨-, ⟨⟩, hzero, -⟩
        exact hal hzero
      · next hal =>
        split
        · next hfit =>
          refine iff_of_false nofun ?_
          rintro ⟨-, ⟨⟩, -, hlt, -⟩
          omega
        · next hfit =>
          obtain ⟨base', g'⟩ := r
          constructor
          · rintro ⟨⟩
            exact ⟨hbase, rfl, Decidable.not_not.mp hal, Nat.not_le.mp hfit, rfl⟩
          · rintro ⟨-, ⟨⟩, -, -, rfl⟩
            rfl

theorem managed_of {base size : Nat} {config : Config} {r : Region}
    (h : Region.of base size config = .ok r) : r.Managed := by
  obtain ⟨hbase, hg, hal, hfit, rfl⟩ := of_eq_ok_iff.mp h
  obtain ⟨hpow, -, hdepth, hshape⟩ := Geometry.ofRegion_eq_ok_iff.mp hg
  have hmin : r.geometry.minSize = config.minSize := congrArg Geometry.minSize hshape
  refine ⟨Nat.pos_of_ne_zero hbase, hmin ▸ hpow, Nat.dvd_of_mod_eq_zero hal, ?_, ?_, by omega⟩
  · exact Nat.le_trans (Nat.le_of_eq (congrArg Geometry.depth hshape)) hdepth
  · rw [depth, hshape]
    exact Nat.sub_le _ _

end Region

/-! ## 2. Calls -/

namespace Metadata

variable {d : Nat} {m : Metadata d} {top : Nat}

/-- The entry of a granule leads to a recorded block that starts there. -/
theorem Listed.records_of_entry (h : m.Listed top) {leaf : Fin (2 ^ d)} {n : Node d}
    (hn : Node.ofId? d (m.entry leaf).toNat = some n) : m.Records n ∧ n.firstLeaf = leaf := by
  have hid : (m.entry leaf).toNat = n.id := by
    unfold Node.ofId? at hn
    split at hn
    · cases hn
      rfl
    · cases hn
  obtain ⟨b, hb, hleaf⟩ := h.entry leaf (by have := n.pos; omega)
  obtain rfl : b = n := Node.ext (by rw [← hid, ← hleaf, hb])
  exact ⟨hb, hleaf⟩

/-- The entry of a granule at which nothing recorded starts is empty. -/
theorem Listed.ofId?_eq_none (h : m.Listed top) {leaf : Fin (2 ^ d)}
    (hleaf : ∀ n, m.Records n → n.firstLeaf ≠ leaf) :
    Node.ofId? d (m.entry leaf).toNat = none := by
  by_cases hz : (m.entry leaf).toNat = 0
  · rw [hz]
    rfl
  · obtain ⟨n, hn, hfirst⟩ := h.entry leaf hz
    exact absurd hfirst (hleaf n hn)

theorem Records.ofId?_eq (hn : m.Records n) :
    Node.ofId? d (m.entry n.firstLeaf).toNat = some n := by
  rw [hn, Node.ofId?, dif_pos ⟨n.pos, n.lt⟩]

/-- Counting a release changes neither the index nor the tree. -/
theorem Sound.discharge (h : m.Sound top) (n : Node d) : (m.discharge n).Sound top :=
  ⟨⟨h.entry, h.level, h.apart⟩, h.fits⟩

/-- In the beginning nothing is recorded, -/
theorem not_records_blank (n : Node d) : ¬ (blank d).Records n := by
  intro hn
  rw [Records, entry_blank] at hn
  exact absurd hn.symm (Nat.ne_of_gt n.pos)

/-- and no flag is set. -/
theorem sound_blank (d top : Nat) : (blank d).Sound top := by
  have hnone : ∀ n, ¬ (blank d).Records n := not_records_blank
  have hhouse : ∀ a s, ¬ Houses (blank d).Records a s := by
    rintro a s ⟨b, hb, -⟩
    exact hnone b hb
  refine ⟨⟨?_, fun hn => absurd hn (hnone _), fun ha => absurd ha (hnone _)⟩, ?_⟩
  · intro leaf hleaf
    simp at hleaf
  · exact
      { busy := fun hn => absurd hn (hnone _)
        vacant := fun _ => by simp [blank]
        occupied := fun _ _ s => iff_of_false (by simp [blank]) (by
          rintro (hs | hc)
          · exact hhouse _ _ hs
          · simp [blank] at hc)
        settled := fun hs => absurd hs (hhouse _ _)
        above := fun _ => by simp [blank]
        leaf := fun _ _ => by simp [blank]
        plain := fun n => by simpa [blank] using Status.plain_clear
        spare := by
          show (Vector.replicate _ Status.clear)[0]? = _
          rw [Vector.getElem?_replicate, if_pos (Nat.two_pow_pos _)] }

end Metadata

section Calls

variable {r : Region} {ε : Type} {obs : Observer r.depth ε} {E : ε → Prop}
  {w : World r.depth ε}

/-- Orders up to the largest are those of the levels from the base level on. -/
theorem Region.Managed.baseLevel_le_sub (hr : r.Managed) {order : Nat}
    (ho : order ≤ r.geometry.maxOrder) : r.geometry.baseLevel ≤ r.depth - order := by
  have hbase : r.geometry.baseLevel ≤ r.geometry.depth := hr.baseLevel_le
  unfold Geometry.maxOrder at ho
  show r.geometry.baseLevel ≤ r.geometry.depth - order
  omega

/-- **Releasing the node that the index leads to.** -/
theorem steady_leave (hobs : obs.Keeps (Steady r.geometry.baseLevel E))
    (h : Steady r.geometry.baseLevel E w) {leaf : Fin (2 ^ r.depth)} {n : Node r.depth}
    (hn : Node.ofId? r.depth (w.store.entry leaf).toNat = some n) :
    (release obs n r.geometry.baseLevel (w.mapStore (.withdraw leaf))).1 = true ∧
      Steady r.geometry.baseLevel E ((release obs n r.geometry.baseLevel
        (w.mapStore (.withdraw leaf))).2.mapStore (.discharge n)) := by
  obtain ⟨hrec, rfl⟩ := h.1.records_of_entry hn
  have hheld : (w.mapStore (.withdraw n.firstLeaf)).store.Holding
      r.geometry.baseLevel n r.geometry.baseLevel := h.1.withdraw hrec
  obtain ⟨htrue, hsteady⟩ := steady_release hobs hheld h.2
  exact ⟨htrue, hsteady.1.discharge n, hsteady.2⟩

/-- Does the call take a block? -/
def Call.Takes : Call → Prop
  | free _ => False
  | _ => True

/-- **Taking a block,** in terms of its claims. -/
theorem take_rule (hr : r.Managed) {P : World r.depth ε → Prop}
    {Q : Node r.depth → World r.depth ε → Prop} (hobs : obs.Keeps P)
    (hclaim : ∀ n, r.geometry.baseLevel ≤ n.level → Claims obs r.geometry.baseLevel P Q n)
    (henter : ∀ n w, Q n w → P (w.mapStore (.enter n))) {c : Call} (hc : c.Takes) (h : P w) :
    P (c.perform r obs w).2 := by
  have hsearch : ∀ order ≤ r.geometry.maxOrder, ∀ w, P w →
      Ended P Q (search obs r.geometry.baseLevel order w) := by
    intro order ho w hw
    have hle := hr.baseLevel_le_sub ho
    exact search_rule hobs (fun n hn => hclaim n (by omega)) hw
  cases c with
  | alloc size =>
    refine alloc_rule hobs size (fun order hord => hsearch order ?_) henter h
    exact Geometry.orderFor?_le hr.minSize_pos hord
  | allocLayout layout => exact allocLayout_rule hr.minSize_pos hobs hsearch henter layout h
  | free address => exact hc.elim

/-- **Every call keeps soundness.** -/
theorem steady_perform (hr : r.Managed) (hobs : obs.Keeps (Steady r.geometry.baseLevel E))
    (c : Call) (h : Steady r.geometry.baseLevel E w) :
    Steady r.geometry.baseLevel E (c.perform r obs w).2 := by
  by_cases hc : c.Takes
  · exact take_rule hr hobs (fun _ => steady_claim hobs)
      (fun _ _ hw => ⟨hw.1.enter hr.depth_le, hw.2⟩) hc h
  · cases c with
    | alloc _ | allocLayout _ => exact absurd trivial hc
    | free address => exact free_rule hobs (fun _ _ _ hw hn => steady_leave hobs hw hn) address h

end Calls

/-! ## 3. Listeners -/

/-- No double free was reported. -/
def Clean (log : Array Record) : Prop := ∀ r ∈ log, ¬ r.IsDoubleFree

theorem Clean.push {log : Array Record} (h : Clean log) {r : Record} (hr : ¬ r.IsDoubleFree) :
    Clean (log.push r) := by
  intro s hs
  rcases Array.mem_push.mp hs with hs | rfl
  · exact h s hs
  · exact hr

theorem clean_empty : Clean #[] :=
  fun r hr => absurd hr (Array.not_mem_empty r)

theorem keeps_recorder (d top : Nat) : (recorder d).Keeps (Steady top Clean) :=
  fun _ _ hr h => ⟨h.1, h.2.push hr⟩

/-- The calls of others, made at the moments that hooks choose. -/
abbrev Region.others (r : Region) : Observer r.depth (Watch Call Reply) :=
  watching _ fun other w => other.perform r (recorder _) w

/-- A watch has seen no double free, and what its actions gave is of a certain kind. -/
def Watch.Tidy {κ ρ : Type} (D : κ → ρ → Prop) (watch : Watch κ ρ) : Prop :=
  Clean watch.log ∧ ∀ p ∈ watch.done, D p.1 p.2

section Watching

variable {d top : Nat} {κ ρ : Type} {D : κ → ρ → Prop} {perform : Watch.Perform d κ ρ}

/-- **Acting at chosen moments** keeps soundness if each action does. -/
theorem keeps_watching
    (hperform : ∀ c w, Steady top Clean w →
      Steady top Clean (perform c w).2 ∧ D c (perform c w).1) :
    (watching d perform).Keeps (Steady top (Watch.Tidy D)) := by
  rintro r w hr ⟨hs, hlog, hdone⟩
  have hstep : ∀ c w (done : Array (κ × ρ)), True →
      Steady top Clean w ∧ (∀ p ∈ done, D p.1 p.2) →
      Steady top Clean (perform c w).2 ∧ ∀ p ∈ done.push (c, (perform c w).1), D p.1 p.2 := by
    rintro c w done - ⟨hw, hdone⟩
    obtain ⟨hw', hD⟩ := hperform c w hw
    refine ⟨hw', fun p hp => ?_⟩
    rcases Array.mem_push.mp hp with hp | rfl
    · exact hdone p hp
    · exact hD
  obtain ⟨hsteady, hD⟩ := react_rule hstep r (fun _ _ _ _ _ => trivial) ⟨⟨hs, hlog.push hr⟩, hdone⟩
  exact ⟨hsteady.1, hsteady.2, hD⟩

end Watching
end BuddyTree
