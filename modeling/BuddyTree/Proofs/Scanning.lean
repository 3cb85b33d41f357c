/-
# What a scan finds when nobody interferes

A scan tests its nodes one after the other, and a refused claim takes it past everything below
what refused.  Whether the node it finds is the first of its kind depends on three things only: no
node of that kind looks occupied, a claim succeeds at such nodes only, and what refuses a claim has
no such node below it.

The kind of node is a parameter `V`, and so is the fact `I` about the metadata that refused claims
keep.  The main fact is `Scans.search`.
-/
import BuddyTree.Proofs.Ancestry
import BuddyTree.Proofs.Rules

namespace BuddyTree

variable {d : Nat}

/-! ## 1. The first node of a kind -/

/-- The first node of kind `V` from number `i` on, below `stop`, or none if there is none. -/
def FirstIn (V : Node d → Prop) (i stop : Nat) : Option (Node d) → Prop
  | none => ∀ x : Node d, i ≤ x.id → x.id < stop → ¬ V x
  | some n => i ≤ n.id ∧ n.id < stop ∧ V n ∧ ∀ x : Node d, i ≤ x.id → x.id < n.id → ¬ V x

/-- There is only one first node. -/
theorem FirstIn.eq {V : Node d → Prop} {i stop : Nat} {found found' : Option (Node d)}
    (h : FirstIn V i stop found) (h' : FirstIn V i stop found') : found = found' := by
  cases found with
  | none =>
    cases found' with
    | none => rfl
    | some b => exact absurd h'.2.2.1 (h b h'.1 h'.2.1)
  | some a =>
    cases found' with
    | none => exact absurd h.2.2.1 (h' a h.1 h.2.1)
    | some b =>
      have hab : ¬ a.id < b.id := fun hlt => h'.2.2.2 a h.1 hlt h.2.2.1
      have hba : ¬ b.id < a.id := fun hlt => h.2.2.2 b h'.1 hlt h'.2.2.1
      exact congrArg some (Node.ext (by omega))

/-- Kinds that agree in the range have the same first node. -/
theorem FirstIn.congr {V V' : Node d → Prop} {i stop : Nat} {found : Option (Node d)}
    (hV : ∀ x : Node d, i ≤ x.id → x.id < stop → (V x ↔ V' x)) (h : FirstIn V i stop found) :
    FirstIn V' i stop found := by
  cases found with
  | none => exact fun x hx hs hv => h x hx hs ((hV x hx hs).mpr hv)
  | some n =>
    obtain ⟨h1, h2, hn, hfirst⟩ := h
    exact ⟨h1, h2, (hV n h1 h2).mp hn,
      fun x hx hs hv => hfirst x hx hs ((hV x hx (by omega)).mpr hv)⟩

/-- Between a node and where a scan goes on after something above it refused lies nothing but
what is below that. -/
theorem Node.within_of_lt_skipPast {x n f : Node d} (hf : n.Within f) (hx : n.id ≤ x.id)
    (hlt : x.id < NodeId.skipPast n.id f.id) : x.Within f := by
  obtain ⟨hle, hup⟩ := within_iff.mp hf
  have hsub : n.level - f.level ≤ NodeId.level n.id := Nat.sub_le _ _
  rw [← hup] at hlt
  have hlevel : x.level = n.level := by
    have hend := NodeId.skipPast_le n.pos hsub
    have hstart := (NodeId.level_bounds n.pos).1
    rw [level, NodeId.level_eq_iff x.pos, level]
    omega
  rw [NodeId.skipPast_up n.pos hsub] at hlt
  rw [within_iff, hlevel, ← hup, NodeId.up_eq_div, NodeId.up_eq_div]
  refine ⟨hle, Nat.le_antisymm ?_ (Nat.div_le_div_right hx)⟩
  exact Nat.le_of_lt_succ ((Nat.div_lt_iff_lt_mul (Nat.two_pow_pos _)).mpr hlt)

/-- What refuses a claim is the node itself or lies above it. -/
theorem within_of_claim_eq_some {ε : Type} {obs : Observer d ε} {n f : Node d} {top : Nat}
    {w w' : World d ε} (hc : claim obs n top w = (some f, w')) : n.Within f := by
  obtain ⟨j, -, hf⟩ := id_of_claim_eq_some (congrArg Prod.fst hc)
  exact ⟨j, hf.symm⟩

/-- Nobody releases anything in a search that nobody interferes with, so its first pass decides. -/
theorem search_silent (top order : Nat) (w : World d Unit) :
    search (silent d) top order w =
      passLevel (silent d) top (d - order) (Nat.sub_le _ _) w := by
  have hsettles := settles_passLevel (silent d) top (d - order) (Nat.sub_le _ _) w
  rw [search_eq]
  generalize passLevel (silent d) top (d - order) (Nat.sub_le _ _) w = result at hsettles ⊢
  obtain ⟨_ | n, w'⟩ := result
  · rcases hsettles with hlt | ⟨-, hsame⟩
    · exact absurd hlt (Nat.lt_irrefl 0)
    · exact if_pos hsame
  · rfl

/-! ## 2. Scans -/

/-- What one claim has to do for a scan of level `l`.  While `I` holds, no node of kind `V` looks
occupied; a claim succeeds at such nodes only, and then `Q` holds; and a claim that is refused keeps
`I`, and has met something below which there is no such node. -/
structure Scans (top l : Nat) (V : Node d → Prop) (I : Metadata d → Prop)
    (Q : Node d → Metadata d → Prop) : Prop where
  busy : ∀ {m : Metadata d} {n : Node d}, I m → n.level = l → (m.tree.get n).isFree = false → ¬ V n
  taken : ∀ {m : Metadata d} {n : Node d} {w : World d Unit}, I m → n.level = l →
    claim (silent d) n top ⟨m, ()⟩ = (none, w) → V n ∧ Q n w.store
  refused : ∀ {m : Metadata d} {n f : Node d} {w : World d Unit}, I m → n.level = l →
    (m.tree.get n).isFree = true → claim (silent d) n top ⟨m, ()⟩ = (some f, w) →
    I w.store ∧ ∀ x : Node d, x.level = l → x.Within f → ¬ V x

namespace Scans

variable {top l : Nat} {V : Node d → Prop} {I : Metadata d → Prop}
  {Q : Node d → Metadata d → Prop} {m : Metadata d}

/-- **One pass** finds the first node of its kind. -/
theorem pass (h : Scans top l V I Q) {stop i : Nat} {hstop : stop ≤ 2 ^ (d + 1)} {hi : 0 < i}
    (hlevel : ∀ x : Node d, i ≤ x.id → x.id < stop → x.level = l) (hm : I m) :
    Ended (fun w => I w.store ∧ FirstIn V i stop none)
      (fun n w => Q n w.store ∧ FirstIn V i stop (some n))
      (pass (silent d) top stop hstop i hi ⟨m, ()⟩) := by
  refine pass_rule_at (I := fun j w => I w.store ∧ i ≤ j ∧
    ∀ x : Node d, i ≤ x.id → x.id < j → x.id < stop → ¬ V x) ?_ ?_
    ⟨hm, Nat.le_refl i, fun x h1 h2 => by omega⟩
  · rintro j w ⟨hw, hij, hpast⟩ hrest
    refine ⟨hw, fun x hx hs => ?_⟩
    by_cases hj : x.id < j
    · exact hpast x hx hj hs
    · exact h.busy hw (hlevel x hx hs) (hrest x (by omega) hs)
  · rintro n j w ⟨hw, hij, hpast⟩ hj hs hfree hbefore
    have hnl := hlevel n (by omega) hs
    have hleft : ∀ x : Node d, i ≤ x.id → x.id < n.id → ¬ V x := by
      intro x hx hxn
      by_cases hxj : x.id < j
      · exact hpast x hx hxj (by omega)
      · exact h.busy hw (hlevel x hx (by omega)) (hbefore x (by omega) hxn)
    refine ⟨fun w' hc => ?_, fun f w' hc => ?_⟩
    · obtain ⟨hV, hQ⟩ := h.taken hw hnl hc
      exact ⟨hQ, by omega, hs, hV, hleft⟩
    · obtain ⟨hw', hbelow⟩ := h.refused hw hnl hfree hc
      have hlt := lt_skipPast_of_claim hc
      refine ⟨hw', by omega, fun x hx hxs hstop => ?_⟩
      by_cases hxn : x.id < n.id
      · exact hleft x hx hxn
      · exact hbelow x (hlevel x hx hstop)
          (Node.within_of_lt_skipPast (within_of_claim_eq_some hc) (by omega) hxs)

/-- **The search** finds the first node of its kind on its level, and nothing only if there is
none. -/
theorem search {order : Nat} (h : Scans top (d - order) V I Q) (hm : I m) :
    Ended (fun w => I w.store ∧ FirstIn V (2 ^ (d - order)) (2 ^ (d - order + 1)) none)
      (fun n w => Q n w.store ∧ FirstIn V (2 ^ (d - order)) (2 ^ (d - order + 1)) (some n))
      (search (silent d) top order ⟨m, ()⟩) := by
  rw [search_silent]
  unfold passLevel
  simp only [NodeId.levelStart_eq]
  exact h.pass (fun x hx hs => (NodeId.level_eq_iff x.pos).mpr ⟨hx, hs⟩) hm

end Scans
end BuddyTree
