/-
# When a level is exhausted

A search gives up after a pass that found nothing while no release was counted.  Each node of the
level was tested at a different time, and others came in between; still, all of them are covered
when the pass ends: each lies within a recorded block or has one below.

Between two releases recorded blocks only become more, so a node that was covered once stays so.
And a byte on the level that is searched says truly whether its node is covered: what others leave
announced, and what the search itself announces while it undoes a claim, stands above that level.

The counter wraps, so "no release was counted" is "no block was given back" only if fewer than
`2 ^ 64` are.

The main facts: `search_eq_none_iff` (a search that gives up has made a last pass), `keeps_since`
(what others do between two moments), `covered_of_pass` and `covered_of_lastPass` (one pass, and the
last one), and `exhausted_order_covered`.
-/
import BuddyTree.Proofs.Answers
import BuddyTree.Proofs.History
import BuddyTree.Proofs.Listening

namespace BuddyTree

variable {d : Nat} {ε : Type}

/-! ## 1. The last pass -/

/-- The search from `w` reads the release counter at `u` for the last time before a pass, makes that
pass, finds nothing, and at `v` finds the counter as it was at `u`. -/
inductive LastPass (obs : Observer d ε) (top order : Nat) :
    World d ε → World d ε → World d ε → Prop where
  | now {w v : World d ε} : passLevel obs top (d - order) (Nat.sub_le _ _) w = (none, v) →
      v.store.released = w.store.released → LastPass obs top order w w v
  | later {w w' u v : World d ε} : passLevel obs top (d - order) (Nat.sub_le _ _) w = (none, w') →
      w'.store.released ≠ w.store.released →
      LastPass obs top order (obs.react (.rescanning order) w') u v → LastPass obs top order w u v

/-- **A search that gives up** has made a last pass, and reports only that it gives up. -/
theorem search_eq_none_iff {obs : Observer d ε} {top order : Nat} {w w' : World d ε} :
    search obs top order w = (none, w') ↔
      ∃ u v, LastPass obs top order w u v ∧ w' = obs.react (.exhausted order) v := by
  constructor
  · suffices hsince : ∀ before w hb, searchSince obs top order before w hb = (none, w') →
        ∃ u v, LastPass obs top order w u v ∧ w' = obs.react (.exhausted order) v from
      hsince _ w rfl
    intro before w hb h
    fun_induction searchSince obs top order before w hb with
    | case1 => cases (Prod.mk.inj h).1
    | case2 w v hp heq => exact ⟨w, v, .now hp heq, (Prod.mk.inj h).2.symm⟩
    | case3 w v hp again hne ih =>
      obtain ⟨u, v', hlast, he⟩ := ih h
      exact ⟨u, v', .later hp hne hlast, he⟩
  · rintro ⟨u, v, hlast, rfl⟩
    induction hlast with
    | now hp heq => rw [search_eq, hp]; exact if_pos heq
    | later hp hne _ ih => rw [search_eq, hp]; exact (if_neg hne).trans ih

/-! ## 2. Levels on which a byte is true -/

namespace Metadata

/-- Sound metadata in which nothing is announced from level `l` on. -/
structure Legible (m : Metadata d) (top l : Nat) : Prop extends m.Sound top where
  quiet : ∀ (a : Node d) s, l ≤ a.level → (m.tree.get a).isCoalescing s = false

/-- The node lies within a recorded block or has one below. -/
def Covered (m : Metadata d) (x : Node d) : Prop := ∃ b, m.Records b ∧ (x.Within b ∨ b.Within x)

/-- From `m` to `m'` nothing was given back. -/
structure Extends (m m' : Metadata d) : Prop where
  released : m'.released = m.released
  records : ∀ {b}, m.Records b → m'.Records b

variable {m m' m'' : Metadata d} {top l : Nat} {n x : Node d}

theorem Extends.refl (m : Metadata d) : m.Extends m :=
  ⟨rfl, id⟩

theorem Extends.trans (h : m.Extends m') (h' : m'.Extends m'') : m.Extends m'' :=
  ⟨h'.released.trans h.released, fun hb => h'.records (h.records hb)⟩

theorem SameBooks.extends (h : SameBooks m m') : m.Extends m' :=
  ⟨h.released, fun hb => by rwa [h.records]⟩

theorem Holding.extends_enter (hd : d ≤ maxDepth) (h : m.Holding top n top) :
    m.Extends (m.enter n) :=
  ⟨rfl, fun hb => (records_enter_iff hd h).mpr (.inl hb)⟩

/-- What announces nothing from level `l` on that was not announced there keeps it so. -/
theorem Legible.of_isCoalescing (h : m.Legible top l) (hs : m'.Sound top)
    (hc : ∀ a s, (m'.tree.get a).isCoalescing s = true → (m.tree.get a).isCoalescing s = true ∨
      ∃ (q : Node d) (e : Side), a.level < q.level ∧ (m.tree.get q).isCoalescing e = true) :
    m'.Legible top l := by
  refine ⟨hs, fun a s hl => (Bool.not_eq_true _).mp fun he => ?_⟩
  rcases hc a s he with hold | ⟨q, e, hlt, hold⟩
  · rw [h.quiet a s hl] at hold
    cases hold
  · rw [h.quiet q e (by omega)] at hold
    cases hold

/-- On such a level a node that is not free is covered, -/
theorem Legible.covered (h : m.Legible top l) (hl : top ≤ l) (hx : l ≤ x.level)
    (hfree : (m.tree.get x).isFree = false) : m.Covered x := by
  rcases (h.toSound.isFree_eq_false_iff (by omega)).mp hfree with ⟨b, hb, hin⟩ | ⟨s, hs⟩
  · exact ⟨b, hb, .inr hin⟩
  · rw [h.quiet x s hx] at hs
    cases hs

/-- and one that is free has a clear byte. -/
theorem Legible.clear (h : m.Legible top l) (hx : l ≤ x.level)
    (hfree : (m.tree.get x).isFree = true) : m.tree.get x = .clear :=
  h.toSound.clear_of_isFree hfree fun s => h.quiet x s hx

/-- A merge announces nothing. -/
theorem Legible.merged {ε : Type} {w : World d ε} (h : w.store.Legible top l) {q : Node.Rung d}
    (hq : (w.store.tree.get q.node).isCoalescing q.child = true) :
    (w.merged q).store.Legible top l := by
  refine h.of_isCoalescing (h.toSound.merged hq) fun a s he => .inl ?_
  by_cases hqa : q.node = a
  · subst hqa
    rw [World.get_merged_self, Status.isCoalescing_unmark, Bool.and_eq_true] at he
    exact he.1
  · rwa [World.get_merged_ne w hqa] at he

theorem AtRest.legible (h : m.AtRest top) (l : Nat) : m.Legible top l :=
  ⟨h.toSound, fun a s _ => h.quiet a s⟩

/-- **A release** announces something only above what was announced. -/
theorem Legible.release {bound : Nat} (h : m.Legible top l) (hheld : m'.Holding top n bound)
    (hc : ∀ a s, (m'.tree.get a).isCoalescing s = true → (m.tree.get a).isCoalescing s = true) :
    (release (silent d) n bound ⟨m', ()⟩).2.store.Legible top l := by
  have hsound := (steady_release (E := fun _ => True) (w := ⟨m', ()⟩) (keeps_silent _) hheld
    trivial).2.1
  have hfree : (m'.tree.get n).isFree = false := by
    rw [hheld.fits.busy (.inr rfl)]
    exact Status.isFree_busy
  refine h.of_isCoalescing hsound fun a s he => ?_
  rw [(release_alone letsPass_silent hheld.bound_le (w := ⟨m', ()⟩) hfree).2, tree_mapTree] at he
  exact (Tree.exists_isCoalescing_of_retire hheld.bound_le he).imp (hc a s)
    fun ⟨q, e, hlt, hq⟩ => ⟨q, e, hlt, hc q e hq⟩

/-- **A claim** does too, whether it succeeds or is refused, and gives nothing back. -/
theorem legible_claim (hx : top ≤ x.level) :
    Claims (silent d) top (fun w => w.store.Legible top l ∧ m.Extends w.store)
      (fun x w => (w.store.Holding top x top ∧
        ∀ (a : Node d) s, l ≤ a.level → (w.store.tree.get a).isCoalescing s = false) ∧
        m.Extends w.store) x := by
  refine claim_rule (fun w h hclear hmarked => ⟨⟨(h.1.marked hx hclear).1 hmarked, ?_⟩, ?_⟩)
    fun w o h hclear hmarked => ⟨?_, ?_⟩
  · refine fun a s hl => (Bool.not_eq_true _).mp fun hc => ?_
    have := isCoalescing_of_marked hc
    rw [h.1.quiet a s hl] at this
    cases this
  · exact h.2.trans (books_mapTree _ w).extends
  · obtain ⟨-, -, hheld⟩ := (h.1.toSound.marked hx hclear).2 o hmarked
    exact h.1.release hheld fun a s => isCoalescing_of_marked
  · exact (h.2.trans (books_mapTree _ w).extends).trans
      (books_release letsPass_silent x (o.level + 1) (w.mapStore (.withMarks x top))).extends

end Metadata

section OneCall

variable {r : Region} {m : Metadata r.depth} {l : Nat}

/-- A call that takes a block gives none back. -/
theorem Call.Takes.gaveBack_eq {c : Call} (hc : c.Takes) (reply : Reply) :
    c.gaveBack reply = false := by
  cases c with
  | alloc _ | allocLayout _ => rfl
  | free _ => exact hc.elim

/-- A release of a recorded block gives one back, -/
theorem Region.Managed.gaveBack_recorded (hr : r.Managed) (n : Node r.depth) :
    (Call.free (r.addressOf n)).gaveBack (.freed (.ok ())) = true := by
  simpa [Call.gaveBack] using hr.addressOf_ne_zero n

/-- and one that succeeds for the address 0 only gives none. -/
theorem Call.gaveBack_unrecorded {address : Nat} {reply : Except FreeError Unit}
    (h : reply = .ok () → address = 0) : (Call.free address).gaveBack (.freed reply) = false := by
  unfold Call.gaveBack
  split
  · next he he' =>
    cases he
    cases he'
    simpa using h rfl
  · rfl

/-- **A call that nobody interferes with** keeps the bytes of a level true, and is counted as a
release if it gave a block back.  If it did not, nothing was. -/
theorem Metadata.Legible.call (hr : r.Managed) (h : m.Legible r.geometry.baseLevel l) (c : Call) :
    (r.call c m).2.Legible r.geometry.baseLevel l ∧
      (r.call c m).2.released =
        m.released + .ofNat (if c.gaveBack (r.call c m).1 then 1 else 0) ∧
      (c.gaveBack (r.call c m).1 = false → m.Extends (r.call c m).2) := by
  rcases r.call_cases m c with hc | ⟨n, hn, rfl⟩ | ⟨address, hnone, rfl⟩
  · have hkeeps := keeps_silent fun w : World r.depth Unit =>
      w.store.Legible r.geometry.baseLevel l ∧ m.Extends w.store
    obtain ⟨hlegible, hextends⟩ : (r.call c m).2.Legible r.geometry.baseLevel l ∧
        m.Extends (r.call c m).2 :=
      take_rule (w := ⟨m, ()⟩) hr hkeeps (fun _ => Metadata.legible_claim)
        (fun _ _ hw => ⟨⟨hw.1.1.enter hr.depth_le, hw.1.2⟩,
          hw.2.trans (hw.1.1.extends_enter hr.depth_le)⟩) hc ⟨h, .refl m⟩
    rw [hc.gaveBack_eq]
    exact ⟨hlegible, hextends.released.trans (UInt64.add_zero _).symm, fun _ => hextends⟩
  · have hrelease := h.release (h.toSound.withdraw hn) fun _ _ => id
    rw [h.toSound.release_withdraw hn] at hrelease
    rw [free_recorded hr hn (h.level hn) (h.toSound.isFree_of_records hn), hr.gaveBack_recorded]
    exact ⟨⟨h.toSound.giveBack hn, hrelease.quiet⟩, rfl, by simp⟩
  · obtain ⟨reply, hzero, hcall⟩ := free_cases r address
    rw [hcall m _ h.toListed hnone, Call.gaveBack_unrecorded hzero]
    exact ⟨h, (UInt64.add_zero _).symm, fun _ => .refl m⟩

end OneCall

/-! ## 3. Between two moments -/

/-- How many of these calls gave a block back. -/
def givenBack (done : List (Call × Reply)) : Nat := done.countP fun p => p.1.gaveBack p.2

/-- What may have happened between two moments, as far as the calls tell that others had made until
then: the counter has counted what was given back, and if nothing was, the index has lost
nothing. -/
structure Since (m₀ : Metadata d) (done₀ : List (Call × Reply)) (m : Metadata d)
    (done : List (Call × Reply)) : Prop where
  history : done₀ <+: done
  released : m.released + .ofNat (givenBack done₀) = m₀.released + .ofNat (givenBack done)
  records : givenBack done = givenBack done₀ → ∀ {b}, m₀.Records b → m.Records b

section Between

variable {m₀ m m' : Metadata d} {done₀ done done' : List (Call × Reply)}

theorem givenBack_mono (h : done <+: done') : givenBack done ≤ givenBack done' := by
  obtain ⟨later, rfl⟩ := h
  unfold givenBack
  rw [List.countP_append]
  exact Nat.le_add_right _ _

theorem Since.refl (m : Metadata d) (done : List (Call × Reply)) : Since m done m done :=
  ⟨List.prefix_rfl, rfl, fun _ => id⟩

theorem Since.trans (h : Since m₀ done₀ m done) (h' : Since m done m' done') :
    Since m₀ done₀ m' done' := by
  refine ⟨h.history.trans h'.history, ?_, fun heq b hb => ?_⟩
  · have h1 := h.released
    have h2 := h'.released
    generalize UInt64.ofNat (givenBack done₀) = g₀ at *
    generalize UInt64.ofNat (givenBack done) = g at *
    generalize UInt64.ofNat (givenBack done') = g' at *
    grind
  · have hle := givenBack_mono h.history
    have hle' := givenBack_mono h'.history
    exact h'.records (by omega) (h.records (by omega) hb)

theorem Since.of_extends (h : m.Extends m') : Since m done m' done :=
  ⟨List.prefix_rfl, by rw [h.released], fun _ _ => h.records⟩

end Between

section Others

variable {r : Region} {l : Nat}

/-- From `u` to `w` the others have done what they may. -/
abbrev World.Since (u w : World r.depth (Watch Call Reply)) : Prop :=
  BuddyTree.Since u.store u.env.done.toList w.store w.env.done.toList

/-- **Those who come in** keep the bytes of a level true, and what they do is counted. -/
theorem keeps_since (hr : r.Managed) (u : World r.depth (Watch Call Reply)) :
    r.others.Keeps fun w => w.store.Legible r.geometry.baseLevel l ∧ u.Since w := by
  intro record w _ h
  have hstep : ∀ c (v : World r.depth (Array Record)) (done : Array (Call × Reply)), True →
      v.store.Legible r.geometry.baseLevel l ∧
        Since u.store u.env.done.toList v.store done.toList →
      (c.perform r (recorder _) v).2.store.Legible r.geometry.baseLevel l ∧
        Since u.store u.env.done.toList (c.perform r (recorder _) v).2.store
          (done.push (c, (c.perform r (recorder _) v).1)).toList := by
    rintro c v done - ⟨hv, hsince⟩
    obtain ⟨hlegible, hreleased, hextends⟩ := hv.call hr c
    rw [perform_recorder] at hlegible hreleased hextends
    refine ⟨hlegible, hsince.trans ⟨?_, ?_, fun heq b hb => ?_⟩⟩
    · rw [Array.toList_push]
      exact List.prefix_append _ _
    · rw [hreleased, Array.toList_push, givenBack, givenBack, List.countP_append,
        List.countP_singleton, UInt64.ofNat_add]
      grind
    · refine (hextends ?_).records hb
      rw [Array.toList_push, givenBack, givenBack, List.countP_append,
        List.countP_singleton] at heq
      simpa using heq
  exact react_rule hstep record (fun _ _ _ _ _ => trivial) h

/-! ## 4. The last pass of an interrupted search -/

variable {n x f : Node r.depth} {u v w w' : World r.depth (Watch Call Reply)}

/-- **A refused claim** of a node on the level, with others in between.  What refuses it is a
recorded block above. -/
theorem legible_refused (hr : r.Managed) (hn : n.level = l) (hl : r.geometry.baseLevel ≤ l)
    (h : w.store.Legible r.geometry.baseLevel l) (hfree : (w.store.tree.get n).isFree = true)
    (hc : claim r.others n r.geometry.baseLevel w = (some f, w')) :
    w'.store.Legible r.geometry.baseLevel l ∧ w.Since w' ∧ w.store.Records f := by
  have hclear := h.clear (by omega) hfree
  rw [claim_eq r.others hclear] at hc
  cases hm : (Metadata.marked n r.geometry.baseLevel w.store.tree).1 with
  | none => simp [hm] at hc
  | some o =>
    simp only [hm] at hc
    obtain ⟨hf, rfl⟩ := Prod.mk.inj hc
    obtain rfl : o = f := Option.some.inj hf
    obtain ⟨hrec, -, hheld⟩ := (h.toSound.marked (by omega) hclear).2 o hm
    let marked := w.mapStore (.withMarks n r.geometry.baseLevel)
    have hgiven : (marked.store.giveUp n (o.level + 1)).Legible r.geometry.baseLevel l := by
      refine ⟨hheld.giveUp, fun a s hal => (Bool.not_eq_true _).mp fun he => ?_⟩
      rw [Metadata.giveUp, Metadata.tree_mapTree, Tree.giveUp, Tree.get_set] at he
      split at he
      · simp at he
      · rcases Tree.isCoalescing_announce.mp he with hold | ⟨hin, -⟩
        · have := Metadata.isCoalescing_of_marked hold
          rw [h.quiet a s hal] at this
          cases this
        · have := hin.level_lt
          omega
    have hsince : w.Since (marked.mapStore (.giveUp n (o.level + 1))) :=
      .of_extends ((books_mapTree _ w).trans (books_mapTree _ marked)).extends
    rw [hheld.release_eq r.others]
    obtain ⟨hlegible, hend⟩ := merge_rule
      (P := fun w' => w'.store.Legible r.geometry.baseLevel l ∧ w.Since w') (keeps_since hr w)
      (fun q _ v hv hq => ⟨hv.1.merged hq,
        hv.2.trans (.of_extends (books_mapTree _ v).extends)⟩) ⟨hgiven, hsince⟩
    exact ⟨hlegible, hend, hrec⟩

/-- A node that was covered still is if nothing was given back. -/
theorem Metadata.Covered.since (h : w.store.Covered x) (hs : w.Since w')
    (heq : givenBack w'.env.done.toList = givenBack w.env.done.toList) : w'.store.Covered x := by
  obtain ⟨b, hb, hx⟩ := h
  exact ⟨b, hs.records heq hb, hx⟩

/-- **One pass** over the level that finds nothing.  If nothing was given back while it went on, it
has left every node covered: those it found occupied, and those it stepped over because of what
refused a claim. -/
theorem covered_of_pass (hr : r.Managed) (hl : r.geometry.baseLevel ≤ l) (hld : l ≤ r.depth)
    (h : w.store.Legible r.geometry.baseLevel l)
    (hpass : passLevel r.others r.geometry.baseLevel l hld w = (none, v)) :
    v.store.Legible r.geometry.baseLevel l ∧ w.Since v ∧
      (givenBack v.env.done.toList = givenBack w.env.done.toList →
        ∀ x : Node r.depth, x.level = l → v.store.Covered x) := by
  let before (j : Nat) (v : World r.depth (Watch Call Reply)) : Prop :=
    (v.store.Legible r.geometry.baseLevel l ∧ w.Since v) ∧
      (givenBack v.env.done.toList = givenBack w.env.done.toList →
        ∀ x : Node r.depth, x.level = l → x.id < j → v.store.Covered x)
  have hlevel : ∀ x : Node r.depth, x.level = l ↔ 2 ^ l ≤ x.id ∧ x.id < 2 ^ (l + 1) :=
    fun x => NodeId.level_eq_iff x.pos
  have hend : Ended (before (2 ^ (l + 1))) (fun _ _ => True)
      (passLevel r.others r.geometry.baseLevel l hld w) := by
    unfold passLevel
    simp only [NodeId.levelStart_eq]
    refine pass_rule_at (I := fun j v => 2 ^ l ≤ j ∧ before j v) ?_ ?_
      ⟨Nat.le_refl _, ⟨h, .refl _ _⟩, fun _ x hx hlt => ?_⟩
    · rintro j v ⟨hj, hv, hcovered⟩ hrest
      refine ⟨hv, fun heq x hx _ => ?_⟩
      by_cases hxj : x.id < j
      · exact hcovered heq x hx hxj
      · exact hv.1.covered hl (by omega) (hrest x (by omega) ((hlevel x).mp hx).2)
    · rintro n j v ⟨hj, hv, hcovered⟩ hnj hns hfree hrest
      have hn : n.level = l := (hlevel n).mpr ⟨by omega, hns⟩
      refine ⟨fun _ _ => trivial, fun f v' hc => ?_⟩
      obtain ⟨hlegible, hsince, hrec⟩ := legible_refused hr hn hl hv.1 hfree hc
      have hreact := keeps_since (l := l) hr v' (.conflict n.id f.id (NodeId.skipPast n.id f.id)) v'
        not_false ⟨hlegible, .refl _ _⟩
      have hlt := lt_skipPast_of_claim hc
      have hstep := hsince.trans hreact.2
      refine ⟨by omega, ⟨hreact.1, hv.2.trans hstep⟩, fun heq x hx hxs => ?_⟩
      have hle := givenBack_mono hv.2.history
      have hle' := givenBack_mono hstep.history
      refine Metadata.Covered.since (w := v) ?_ hstep (by omega)
      by_cases hxn : x.id < n.id
      · by_cases hxj : x.id < j
        · exact hcovered (by omega) x hx hxj
        · exact hv.1.covered hl (by omega) (hrest x (by omega) hxn)
      · have hbelow := Node.within_of_lt_skipPast (within_of_claim_eq_some hc) (by omega) hxs
        exact ⟨f, hrec, .inl hbelow⟩
    · have := (hlevel x).mp hx
      omega
  rw [hpass] at hend
  exact ⟨hend.1.1, hend.1.2, fun heq x hx => hend.2 heq x hx ((hlevel x).mp hx).2⟩

/-- **The last pass** of a search that gives up.  Fewer than `2 ^ 64` blocks were given back, so
none was while that pass went on, and it has left every node of its level covered. -/
theorem covered_of_lastPass (hr : r.Managed) {order : Nat}
    (ho : r.geometry.baseLevel ≤ r.depth - order)
    (hlast : LastPass r.others r.geometry.baseLevel order w u v)
    (h : w.store.Legible r.geometry.baseLevel (r.depth - order))
    (hfew : givenBack (r.others.react (.exhausted order) v).env.done.toList < 2 ^ (64 : Nat)) :
    u.Since v ∧ givenBack v.env.done.toList = givenBack u.env.done.toList ∧
      ∀ x : Node r.depth, x.order = order → v.store.Covered x := by
  induction hlast with
  | @now w v hpass heq =>
    obtain ⟨hlegible, hsince, hcovered⟩ := covered_of_pass hr ho (Nat.sub_le _ _) h hpass
    have hend := keeps_since hr v (.exhausted order) v not_false ⟨hlegible, .refl _ _⟩
    have hsame : givenBack v.env.done.toList = givenBack w.env.done.toList := by
      have hle := givenBack_mono hsince.history
      have hle' := givenBack_mono hend.2.history
      have hcount := hsince.released
      rw [heq, UInt64.add_right_inj] at hcount
      have := congrArg UInt64.toNat hcount
      rw [UInt64.toNat_ofNat', UInt64.toNat_ofNat', Nat.mod_eq_of_lt (by omega),
        Nat.mod_eq_of_lt (by omega)] at this
      exact this.symm
    refine ⟨hsince, hsame, fun x hx => hcovered hsame x ?_⟩
    have := x.level_le
    unfold Node.order at hx
    omega
  | later hpass _ _ ih =>
    obtain ⟨hlegible, -, -⟩ := covered_of_pass hr ho (Nat.sub_le _ _) h hpass
    have hreact := keeps_since hr _ (.rescanning order) _ not_false ⟨hlegible, .refl _ _⟩
    exact ih hreact.1 hfew

end Others

/-! ## 5. Out of memory -/

/-- **An allocation that fails for lack of memory** is right to do so, whoever came in between.
After any history, let it be interrupted by calls of which fewer than `2 ^ 64` gave a block back.
If it reports that it is out of memory, then it has made a last pass, and all that happened after
that is the report that the level is exhausted.  At the end of that pass every node of the order it
looked for lay within a live block or had one below, and since the counter was read before the pass
no free had succeeded, unless it was one of address 0, which does nothing. -/
theorem exhausted_order_covered {base size : Nat} {config : Config} {r : Region}
    (h : Region.of base size config = .ok r) (cs : List Call) (c : Call)
    (hooks : List (Hook Call)) {bytes : Nat} :
    let m := (r.calls cs (.blank _)).2
    let result := r.interrupted c hooks m
    givenBack result.2.1.done.toList < 2 ^ (64 : Nat) →
    result.1 = .allocated (.error (.outOfMemory bytes)) →
    ∃ order u v since, r.geometry.orderFor? c.wanted = some order ∧
      LastPass r.others r.geometry.baseLevel order ⟨m, .start hooks⟩ u v ∧
      r.others.react (.exhausted order) v = ⟨result.2.2, result.2.1⟩ ∧
      v.env.done.toList = u.env.done.toList ++ since ∧
      (∀ address, (.free address, .freed (.ok ())) ∈ since → address = 0) ∧
      ∀ x : Node r.depth, x.order = order → v.store.Covered x := by
  intro m result hfew hreply
  have hr := Region.managed_of h
  have hm : m.AtRest r.geometry.baseLevel := (mirrors_calls hr cs).toAtRest
  have hresult : result = ((c.perform r r.others ⟨m, .start hooks⟩).1,
      (c.perform r r.others ⟨m, .start hooks⟩).2.env,
      (c.perform r r.others ⟨m, .start hooks⟩).2.store) := rfl
  by_cases hc : c.Takes
  · rcases take_cases (r := r) hc with ⟨e, he, hfail⟩ | ⟨order, ho, htake⟩
    · rw [hresult, hfail r.others] at hreply
      cases hreply
      exact absurd rfl (he bytes)
    · rw [hresult, htake r.others] at hreply hfew
      rw [hresult, htake r.others]
      generalize hs : search r.others r.geometry.baseLevel order ⟨m, .start hooks⟩ = found
        at hreply hfew ⊢
      obtain ⟨_ | n, w⟩ := found
      · obtain ⟨u, v, hlast, rfl⟩ := search_eq_none_iff.mp hs
        obtain ⟨hsince, hsame, hcovered⟩ := covered_of_lastPass hr
          (hr.baseLevel_le_sub (Geometry.orderFor?_le hr.minSize_pos ho)) hlast (hm.legible _) hfew
        obtain ⟨since, hdone⟩ := hsince.history
        refine ⟨order, u, v, since, ho, hlast, rfl, hdone.symm, fun address hp => ?_, hcovered⟩
        rw [← hdone, givenBack, givenBack, List.countP_append, Nat.add_eq_left,
          List.countP_eq_zero] at hsame
        simpa [Call.gaveBack] using hsame _ hp
      · cases hreply
  · cases c with
    | alloc _ | allocLayout _ => exact absurd trivial hc
    | free address => cases hreply

/-- The one block of a region is given back and taken again while a granule is looked for, so
another pass is made; in that one too much is asked for, and nothing is given back. -/
theorem exhausted_order_covered_of_exchange :
    let r : Region := ⟨4096, ⟨1, 3, 0⟩⟩
    let hooks : List (Hook Call) :=
      [⟨.conflict, 1, [.free 4096, .alloc 8]⟩, ⟨.conflict, 2, [.alloc 4, .free 0]⟩]
    let m := (r.calls [.alloc 8] (.blank _)).2
    let result := r.interrupted (.alloc 1) hooks m
    Region.of 4096 8 ⟨1, 3⟩ = .ok r ∧ result.2.1.done.size = 4 ∧
      result.1 = .allocated (.error (.outOfMemory 1)) ∧
      ∃ order u v, r.geometry.orderFor? 1 = some order ∧
        LastPass r.others r.geometry.baseLevel order ⟨m, .start hooks⟩ u v ∧
        ∀ x : Node r.depth, x.order = order → v.store.Covered x := by
  have hr : Region.of 4096 8 ⟨1, 3⟩ = .ok ⟨4096, ⟨1, 3, 0⟩⟩ := rfl
  have hreply : (Region.interrupted ⟨4096, ⟨1, 3, 0⟩⟩ (.alloc 1)
      [⟨.conflict, 1, [.free 4096, .alloc 8]⟩, ⟨.conflict, 2, [.alloc 4, .free 0]⟩]
      (Region.calls ⟨4096, ⟨1, 3, 0⟩⟩ [.alloc 8] (.blank _)).2).1 =
      .allocated (.error (.outOfMemory 1)) := by
    with_unfolding_all rfl
  obtain ⟨order, u, v, -, ho, hlast, -, -, -, hcovered⟩ := exhausted_order_covered hr [.alloc 8]
    (.alloc 1) [⟨.conflict, 1, [.free 4096, .alloc 8]⟩, ⟨.conflict, 2, [.alloc 4, .free 0]⟩]
    (by decide +kernel) hreply
  exact ⟨hr, by decide +kernel, hreply, order, u, v, ho, hlast, hcovered⟩

end BuddyTree
