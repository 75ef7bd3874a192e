import ScriptTree.Proofs.Derivation

/-!
Where concrete trees stand. A tree that a rule builds from the tokens of rank `p` up to `q` begins
after the tokens before rank `p` and ends with a token before rank `q`, also in text with faults.
-/
namespace ScriptTree

namespace Concrete

theorem lastToken?_inner (kind : Kind) (start : Nat) (stop : Option Nat)
    (children : List Concrete) :
    (inner kind start stop children).lastToken? =
      Option.merge max stop (lastTokenOf? children) := by
  rw [inner, lastToken?]

theorem lastToken?_leaf (kind : Kind) (index : Nat) (text : String) :
    (leaf kind index text).lastToken? = some index := by
  simp [leaf, lastToken?, lastTokenOf?]

theorem lastToken?_absent (kind : Kind) (start : Nat) :
    (absent kind start).lastToken? = none := by
  simp [absent, lastToken?, lastTokenOf?]

theorem after_absent (kind : Kind) (start : Nat) : (absent kind start).after = start := by
  simp [after, absent, lastToken?, lastTokenOf?]

/-- The last token of a list is that of one of its trees. -/
theorem exists_of_lastTokenOf? {ts : List Concrete} {l : Nat} (h : lastTokenOf? ts = some l) :
    ∃ t ∈ ts, t.lastToken? = some l := by
  induction ts with
  | nil => cases h
  | cons t ts ih =>
    rw [lastTokenOf?] at h
    split at h
    · exact ⟨t, List.mem_cons_self, h⟩
    · obtain ⟨u, hu, hl⟩ := ih h
      exact ⟨u, List.mem_cons_of_mem t hu, hl⟩

/-- Where a node ends that goes as far as its children do. -/
theorem lastToken?_eq_stop {t : Concrete} (h : ∀ u ∈ t.children, ∀ l, u.lastToken? = some l →
    ∃ s, t.stop = some s ∧ l ≤ s) : t.lastToken? = t.stop := by
  obtain ⟨kind, start, stop, text, children⟩ := t
  rw [lastToken?]
  cases hinside : lastTokenOf? children with
  | none => cases stop <;> rfl
  | some l =>
    obtain ⟨u, hu, hl⟩ := exists_of_lastTokenOf? hinside
    obtain ⟨s, rfl, hle⟩ := h u hu l hl
    exact congrArg some (Nat.max_eq_left hle)

/-- A node around one tree that takes over its ends. -/
theorem lastToken?_around (kind : Kind) (start : Nat) (t : Concrete) :
    (inner kind start t.lastToken? [t]).lastToken? = t.lastToken? := by
  rw [lastToken?_inner, lastTokenOf?]
  cases t.lastToken? <;> simp [Option.merge]

theorem after_of_lastToken? {t u : Concrete} (h : t.lastToken? = u.lastToken?)
    (hstart : t.start = u.start) : t.after = u.after := by
  rw [after, after, h, hstart]

end Concrete

/-- The tokens from place `start` up to `stop`. -/
structure Stretch where
  start : Nat
  stop : Nat

/-- The tokens of a tree. -/
def Concrete.stretch (t : Concrete) : Stretch := ⟨t.start, t.after⟩

/-- Stretch `r` takes in what is written in `s`: where `s` goes beyond `r`, it meets hidden tokens
only. -/
def Input.TakesIn (input : Input) (r s : Stretch) : Prop :=
  ∀ j, j < input.significant.size →
    (r.start ≤ input.indexAt j ∨ input.indexAt j < s.start) ∧
      (input.indexAt j < r.stop ∨ s.stop ≤ input.indexAt j)

namespace Input.TakesIn
variable {input : Input} {r s v : Stretch}

theorem of_le (hstart : r.start ≤ s.start) (hstop : s.stop ≤ r.stop) : input.TakesIn r s := by
  intro j _
  omega

theorem refl (r : Stretch) : input.TakesIn r r := of_le (Nat.le_refl _) (Nat.le_refl _)

theorem trans (hrs : input.TakesIn r s) (hsv : input.TakesIn s v) : input.TakesIn r v := by
  intro j hj
  have := hrs j hj
  have := hsv j hj
  omega

end Input.TakesIn

/-- Trees with this tag begin with a keyword. -/
def Kind.beginsWithWord (k : Kind) : Bool := k.isKeyword || k == .forEach

/-- Words that are operands by themselves. A star is one if it stands for all names. -/
def Kind.isLoneWord : Kind → Bool
  | .thisKeyword | .nullKeyword | .asterisk => true
  | _ => false

/-- A tag of nodes that have no word but the one they begin with. -/
def Kind.isOrdinary (k : Kind) : Bool := k != .defaultXmlNamespace && !k.isLoneWord

/-- A tag of nodes that go on after their first child. A star is one if it is an operator. -/
def Kind.isJoint (k : Kind) : Bool := k.isOrdinary || k == .asterisk

/-- A tag of nodes that have no word at all, so that they may be without tokens. -/
def Kind.isWordless (k : Kind) : Bool := k.isOrdinary && !k.beginsWithWord

/-- The words that the tag of a tree stands for are there. -/
structure Concrete.HasWords (t : Concrete) : Prop where
  first : t.kind.beginsWithWord = true → t.start < t.after
  lone : t.kind.isLoneWord = true → t.text = none → t.kind = .asterisk ∧ t.children ≠ []
  namespaceWords : t.kind = .defaultXmlNamespace → ∀ u ∈ t.children.dropLast, u.text ≠ none

namespace Concrete.HasWords
variable {t : Concrete}

theorem of_isOrdinary (hkind : t.kind.isOrdinary = true) (hlt : t.start < t.after) :
    t.HasWords := by
  refine ⟨fun _ => hlt, fun hlone => ?_, fun hspace => ?_⟩
  · rw [Kind.isOrdinary, hlone, Bool.not_true, Bool.and_false] at hkind
    cases hkind
  · rw [hspace] at hkind
    cases hkind

theorem of_isWordless (hkind : t.kind.isWordless = true) : t.HasWords := by
  obtain ⟨hordinary, hword⟩ := Bool.and_eq_true_iff.mp hkind
  refine ⟨fun hfirst => ?_, fun hlone => ?_, fun hspace => ?_⟩
  · rw [hfirst] at hword
    cases hword
  · rw [Kind.isOrdinary, hlone, Bool.not_true, Bool.and_false] at hordinary
    cases hordinary
  · rw [hspace] at hkind
    cases hkind

theorem of_isJoint (hkind : t.kind.isJoint = true) (hchildren : t.children ≠ [])
    (hlt : t.start < t.after) : t.HasWords := by
  rcases Bool.or_eq_true_iff.mp hkind with hordinary | hstar
  · exact .of_isOrdinary hordinary hlt
  · have hstar : t.kind = .asterisk := beq_iff_eq.mp hstar
    refine ⟨fun _ => hlt, fun _ _ => ⟨hstar, hchildren⟩, fun hspace => ?_⟩
    rw [hstar] at hspace
    cases hspace

end Concrete.HasWords

/-- Tree `t` is the leaf of a token. Its tag is the kind of the token, or that of names. -/
def Input.IsLeaf (input : Input) (t : Concrete) : Prop :=
  ∃ p k tag, input.Sees p k ∧ (tag = k ∨ tag = .identifier) ∧ t = input.leafAt p tag

/-- A tree that begins in the list or right after it, and whose own end is the end of all that is in
it: a significant token, and not before its beginning. -/
structure Input.Anchored (input : Input) (t : Concrete) : Prop where
  start_le_count : t.start ≤ input.count
  last_eq : t.lastToken? = t.stop
  stop : ∀ s, t.stop = some s →
    t.start ≤ s ∧ ∃ j, j < input.significant.size ∧ input.indexAt j = s

/-- A tree that has its words and takes in what is written in the trees inside it. -/
structure Input.Holds (input : Input) (t : Concrete) : Prop where
  anchored : input.Anchored t
  start_le : t.start ≤ t.after
  takesIn : ∀ u ∈ t.children, input.TakesIn t.stretch u.stretch
  text : t.text = none ∨ input.IsLeaf t
  words : t.HasWords

/-- A tree in which every tree takes in what is written inside it. -/
inductive Input.Snug (input : Input) : Concrete → Prop where
  | intro : input.Holds t → (∀ u ∈ t.children, input.Snug u) → input.Snug t

namespace Input.Snug
variable {input : Input} {t u : Concrete}

theorem holds (h : input.Snug t) : input.Holds t := by
  cases h
  assumption

theorem inside (h : input.Snug t) (hu : u ∈ t.children) : input.Snug u := by
  cases h with
  | intro _ hinside => exact hinside u hu

end Input.Snug

/-- Tree `t` lies between the tokens before rank `p` and those from rank `q` on. -/
structure Input.Within (input : Input) (p q : Nat) (t : Concrete) : Prop where
  start_ge : input.afterAt p ≤ t.start
  start_le : t.start ≤ input.indexAt q
  last_ge : ∀ l, t.lastToken? = some l → input.afterAt p ≤ l
  last_lt : ∀ l, t.lastToken? = some l → l < input.afterAt q
  snug : input.Snug t

namespace Input
variable {input : Input} {p q : Nat} {t : Concrete}

theorem lastBefore_lt_afterAt {l : Nat} (h : input.lastBefore q = some l) :
    l < input.afterAt q := by
  rw [afterAt, h]
  exact Nat.lt_succ_self l

/-- The node of a single token. -/
theorem nodeAt_succ {kind : Kind} (h : p < input.significant.size) :
    input.nodeAt (p + 1) kind (input.indexAt p) [] =
      .inner kind (input.indexAt p) (some (input.indexAt p)) [] := by
  rw [nodeAt, lastBefore_succ h, Option.filter_some, decide_eq_true (Nat.le_refl _), if_pos rfl]

theorem start_lt_after_leafAt (input : Input) (p : Nat) (tag : Kind) :
    (input.leafAt p tag).start < (input.leafAt p tag).after := by
  rw [Concrete.after, leafAt, Concrete.lastToken?_leaf]
  exact Nat.lt_succ_self _

/-- The last token of a node is the last one before rank `q` or that of a child. -/
theorem lastToken?_nodeAt_cases {kind : Kind} {start l : Nat} {children : List Concrete}
    (h : (input.nodeAt q kind start children).lastToken? = some l) :
    start ≤ l ∧ input.lastBefore q = some l ∨ ∃ t ∈ children, t.lastToken? = some l := by
  rw [nodeAt, Concrete.lastToken?_inner] at h
  cases hstop : (input.lastBefore q).filter (start ≤ ·) with
  | none =>
    rw [hstop] at h
    exact .inr (Concrete.exists_of_lastTokenOf? (by simpa using h))
  | some m =>
    obtain ⟨hlast, hle⟩ := Option.filter_eq_some_iff.mp hstop
    have hown : start ≤ m ∧ input.lastBefore q = some m := ⟨of_decide_eq_true hle, hlast⟩
    cases hinside : Concrete.lastTokenOf? children with
    | none =>
      rw [hstop, hinside] at h
      obtain rfl : m = l := by simpa using h
      exact .inl hown
    | some i =>
      rw [hstop, hinside] at h
      have hmax : max m i = l := by simpa using h
      rcases Nat.le_total m i with hle | hle
      · rw [Nat.max_eq_right hle] at hmax
        exact .inr (Concrete.exists_of_lastTokenOf? (hmax ▸ hinside))
      · rw [Nat.max_eq_left hle] at hmax
        exact .inl (hmax ▸ hown)

/-- A node around one tree that takes over its ends. -/
theorem Anchored.around {kind : Kind} (h : input.Anchored t) :
    input.Anchored (.inner kind t.start t.lastToken? [t]) where
  start_le_count := h.start_le_count
  last_eq := Concrete.lastToken?_around kind t.start t
  stop := h.last_eq ▸ h.stop

theorem within_around {kind : Kind} (hkind : kind.isWordless = true)
    (h : input.Within p q t) :
    input.Within p q (.inner kind t.start t.lastToken? [t]) where
  start_ge := h.start_ge
  start_le := h.start_le
  last_ge l hl := h.last_ge l (by rwa [Concrete.lastToken?_around] at hl)
  last_lt l hl := h.last_lt l (by rwa [Concrete.lastToken?_around] at hl)
  snug := by
    have hafter : (Concrete.inner kind t.start t.lastToken? [t]).after = t.after :=
      Concrete.after_of_lastToken? (Concrete.lastToken?_around ..) rfl
    refine .intro ⟨h.snug.holds.anchored.around, ?_, List.forall_mem_singleton.mpr ?_, .inl rfl,
      .of_isWordless hkind⟩ (List.forall_mem_singleton.mpr h.snug)
    · rw [hafter]
      exact h.snug.holds.start_le
    · rw [Concrete.stretch, hafter]
      exact .refl t.stretch

namespace Over
variable {tokens : Array Token} (hover : input.Over tokens)
include hover

theorem within_absent {kind : Kind} {start : Nat} (hkind : kind.isWordless = true)
    (hge : input.afterAt p ≤ start) (hle : start ≤ input.indexAt q) :
    input.Within p q (.absent kind start) where
  start_ge := hge
  start_le := hle
  last_ge l hl := by
    rw [Concrete.lastToken?_absent] at hl
    cases hl
  last_lt l hl := by
    rw [Concrete.lastToken?_absent] at hl
    cases hl
  snug := by
    have hempty : start ≤ (Concrete.absent kind start).after :=
      Nat.le_of_eq (Concrete.after_absent kind start).symm
    have hanchored : input.Anchored (.absent kind start) :=
      ⟨Nat.le_trans hle (hover.indexAt_le_count q), Concrete.lastToken?_absent kind start, nofun⟩
    exact .intro ⟨hanchored, hempty, nofun, .inl rfl, .of_isWordless hkind⟩ nofun

theorem after_le (h : input.Within p q t) : t.after ≤ input.indexAt q := by
  unfold Concrete.after
  split
  · rename_i l hl
    exact Nat.le_trans (h.last_lt l hl) (hover.afterAt_le_indexAt q)
  · exact h.start_le

theorem within_mono {p' q' : Nat} (h : input.Within p q t) (hp : p' ≤ p) (hq : q ≤ q')
    (hpq : p ≤ q) (hsize : q' ≤ input.significant.size) : input.Within p' q' t where
  start_ge := Nat.le_trans (hover.afterAt_mono (by omega) hp) h.start_ge
  start_le := Nat.le_trans h.start_le (hover.indexAt_mono hq)
  last_ge l hl := Nat.le_trans (hover.afterAt_mono (by omega) hp) (h.last_ge l hl)
  last_lt l hl := Nat.lt_of_lt_of_le (h.last_lt l hl) (hover.afterAt_mono hsize hq)
  snug := h.snug

theorem within_leafAt {k tag : Kind} (hsees : input.Sees p k)
    (htag : tag = k ∨ tag = .identifier) : input.Within p (p + 1) (input.leafAt p tag) where
  start_ge := hover.afterAt_le_indexAt p
  start_le := hover.indexAt_mono (Nat.le_succ p)
  last_ge l hl := by
    rw [leafAt, Concrete.lastToken?_leaf, Option.some.injEq] at hl
    rw [← hl]
    exact hover.afterAt_le_indexAt p
  last_lt l hl := by
    rw [leafAt, Concrete.lastToken?_leaf, Option.some.injEq] at hl
    rw [afterAt_succ hsees.lt_size, hl]
    exact Nat.lt_succ_self l
  snug := by
    have hlt := input.start_lt_after_leafAt p tag
    have hanchored : input.Anchored (input.leafAt p tag) := by
      refine ⟨hover.indexAt_le_count p, Concrete.lastToken?_leaf .., fun s hs => ?_⟩
      obtain rfl : input.indexAt p = s := Option.some.inj hs
      exact ⟨Nat.le_refl _, p, hsees.lt_size, rfl⟩
    exact .intro ⟨hanchored, Nat.le_of_lt hlt, nofun, .inr ⟨p, k, tag, hsees, htag, rfl⟩,
      ⟨fun _ => hlt, fun _ => nofun, fun _ => nofun⟩⟩ nofun

theorem within_missingAt {kind : Kind} (hkind : kind.isWordless = true) :
    input.Within p p (input.missingAt p kind) := by
  apply hover.within_absent hkind
  · unfold missingStart afterAt
    cases hlast : input.lastBefore p with
    | none => exact Nat.zero_le _
    | some l =>
      have hle := hover.afterAt_le_indexAt p
      rw [afterAt, hlast] at hle
      exact Nat.le_min.mpr ⟨Nat.le_refl _, hle⟩
  · unfold missingStart
    split
    · exact Nat.min_le_right _ _
    · exact Nat.le_refl _

/-- A node goes on at least to the last token before its end that does not come before it. -/
theorem indexAt_lt_after_nodeAt {kind : Kind} {start j : Nat} {children : List Concrete}
    (hq : q ≤ input.significant.size) (hj : j < q) (hstart : start ≤ input.indexAt j) :
    input.indexAt j < (input.nodeAt q kind start children).after := by
  obtain ⟨m, rfl⟩ : ∃ m, q = m + 1 := ⟨q - 1, by omega⟩
  have hjm : input.indexAt j ≤ input.indexAt m := hover.indexAt_mono (by omega)
  have hown : (input.lastBefore (m + 1)).filter (start ≤ ·) = some (input.indexAt m) := by
    rw [lastBefore_succ hq, Option.filter_some, decide_eq_true (Nat.le_trans hstart hjm),
      if_pos rfl]
  rw [Concrete.after, nodeAt, Concrete.lastToken?_inner, hown]
  cases Concrete.lastTokenOf? children with
  | none => exact Nat.lt_succ_of_le hjm
  | some l => exact Nat.lt_succ_of_le (Nat.le_trans hjm (Nat.le_max_left _ _))

/-- Nothing in a node goes beyond the last token before its end: what ends after the beginning of
the node does not end after that token. -/
theorem anchored_nodeAt {kind : Kind} {start : Nat} {children : List Concrete}
    (hq : q ≤ input.significant.size) (hle : start ≤ input.indexAt q)
    (hchildren : ∀ t ∈ children, input.Within p q t)
    (hleft : ∀ t ∈ children, ∀ j, start ≤ input.indexAt j ∨ input.indexAt j < t.start) :
    input.Anchored (input.nodeAt q kind start children) where
  start_le_count := Nat.le_trans hle (hover.indexAt_le_count q)
  last_eq := by
    refine Concrete.lastToken?_eq_stop fun t ht l hl => ?_
    have hanchored := (hchildren t ht).snug.holds.anchored
    obtain ⟨hstart, j, -, rfl⟩ := hanchored.stop l (hanchored.last_eq ▸ hl)
    have hge : start ≤ input.indexAt j := (hleft t ht j).resolve_right (Nat.not_lt.mpr hstart)
    have hlt := (hchildren t ht).last_lt _ hl
    cases q with
    | zero => exact absurd hlt (Nat.not_lt_zero _)
    | succ m =>
      rw [afterAt_succ hq] at hlt
      have hstop : start ≤ input.indexAt m := by omega
      refine ⟨input.indexAt m, ?_, Nat.le_of_lt_succ hlt⟩
      simp [nodeAt, Concrete.inner, lastBefore_succ hq, Option.filter_some, hstop]
  stop := by
    intro s hs
    obtain ⟨hlast, hge⟩ := Option.filter_eq_some_iff.mp hs
    cases q with
    | zero => cases hlast
    | succ m =>
      rw [lastBefore_succ hq] at hlast
      exact ⟨of_decide_eq_true hge, m, hq, Option.some.inj hlast⟩

/-- A node over trees between ranks `p` and `q`. -/
theorem within_nodeAt {kind : Kind} {start : Nat} {children : List Concrete}
    (hq : q ≤ input.significant.size) (hge : input.afterAt p ≤ start)
    (hle : start ≤ input.indexAt q) (hchildren : ∀ t ∈ children, input.Within p q t)
    (hafter : start ≤ (input.nodeAt q kind start children).after)
    (hleft : ∀ t ∈ children, ∀ j, start ≤ input.indexAt j ∨ input.indexAt j < t.start)
    (hwords : (input.nodeAt q kind start children).HasWords) :
    input.Within p q (input.nodeAt q kind start children) where
  start_ge := hge
  start_le := hle
  last_ge l hl := by
    rcases lastToken?_nodeAt_cases hl with ⟨hown, _⟩ | ⟨t, ht, hlast⟩
    · exact Nat.le_trans hge hown
    · exact (hchildren t ht).last_ge l hlast
  last_lt l hl := by
    rcases lastToken?_nodeAt_cases hl with ⟨_, hown⟩ | ⟨t, ht, hlast⟩
    · exact lastBefore_lt_afterAt hown
    · exact (hchildren t ht).last_lt l hlast
  snug := by
    refine .intro ⟨hover.anchored_nodeAt hq hle hchildren hleft, hafter,
      fun t ht j hj => ⟨hleft t ht j, ?_⟩, .inl rfl, hwords⟩ fun t ht => (hchildren t ht).snug
    -- Tokens from rank `q` on come after the child; those before it are not after the node.
    by_cases hjq : j < q
    · left
      rcases Nat.lt_or_ge (input.indexAt j) start with hlt | hge
      · exact Nat.lt_of_lt_of_le hlt hafter
      · exact hover.indexAt_lt_after_nodeAt hq hjq hge
    · right
      exact Nat.le_trans (hover.after_le (hchildren t ht))
        (hover.indexAt_mono (Nat.le_of_not_lt hjq))

/-- A node that begins with the token of rank `p`. -/
theorem within_nodeAt_index {kind : Kind} {children : List Concrete} (hpq : p ≤ q)
    (hq : q ≤ input.significant.size) (hchildren : ∀ t ∈ children, input.Within p q t)
    (hwords : (input.nodeAt q kind (input.indexAt p) children).HasWords) :
    input.Within p q (input.nodeAt q kind (input.indexAt p) children) := by
  refine hover.within_nodeAt hq (hover.afterAt_le_indexAt p) (hover.indexAt_mono hpq) hchildren
    ?_ ?_ hwords
  · rcases Nat.lt_or_eq_of_le hpq with hpq | rfl
    · exact Nat.le_of_lt (hover.indexAt_lt_after_nodeAt hq hpq (Nat.le_refl _))
    · -- Nothing was read, so no child has a token.
      rw [Concrete.after]
      split
      · rename_i l hl
        rcases lastToken?_nodeAt_cases hl with ⟨hown, _⟩ | ⟨t, ht, hlast⟩
        · exact Nat.le_succ_of_le hown
        · have := (hchildren t ht).last_ge l hlast
          have := (hchildren t ht).last_lt l hlast
          omega
      · exact Nat.le_refl _
  · intro t ht j
    rcases Nat.lt_or_ge j p with hjp | hpj
    · right
      exact Nat.lt_of_lt_of_le (hover.indexAt_lt_afterAt (by omega) hjp) (hchildren t ht).start_ge
    · left
      exact hover.indexAt_mono hpj

/-- A node that begins with its first child, which was read before rank `m`. -/
theorem within_nodeAt_first {kind : Kind} {m : Nat} {us : List Concrete} (hpm : p ≤ m)
    (hmq : m ≤ q) (hq : q ≤ input.significant.size) (ht : input.Within p m t)
    (hus : ∀ u ∈ us, input.Within m q u)
    (hwords : (input.nodeAt q kind t.start (t :: us)).HasWords) :
    input.Within p q (input.nodeAt q kind t.start (t :: us)) := by
  refine hover.within_nodeAt hq ht.start_ge
    (Nat.le_trans ht.start_le (hover.indexAt_mono hmq)) ?_ ?_ ?_ hwords
  · intro u hu
    rcases List.mem_cons.mp hu with rfl | hu
    · exact hover.within_mono ht (Nat.le_refl p) hmq hpm hq
    · exact hover.within_mono (hus u hu) hpm (Nat.le_refl q) hmq hq
  · rcases Nat.lt_or_eq_of_le hmq with hmq | rfl
    · exact Nat.le_trans ht.start_le
        (Nat.le_of_lt (hover.indexAt_lt_after_nodeAt hq hmq ht.start_le))
    · rw [Concrete.after]
      split
      · rename_i l hl
        rcases lastToken?_nodeAt_cases hl with ⟨hown, _⟩ | ⟨u, hu, hlast⟩
        · exact Nat.le_succ_of_le hown
        · rcases List.mem_cons.mp hu with rfl | hu
          · have hle := ht.snug.holds.start_le
            rwa [Concrete.after, hlast] at hle
          · have := (hus u hu).last_ge l hlast
            have := (hus u hu).last_lt l hlast
            omega
      · exact Nat.le_refl _
  · intro u hu j
    rcases List.mem_cons.mp hu with rfl | hu
    · exact Nat.lt_or_ge _ _ |>.symm
    · rcases Nat.lt_or_ge j m with hjm | hmj
      · right
        exact Nat.lt_of_lt_of_le (hover.indexAt_lt_afterAt (by omega) hjm) (hus u hu).start_ge
      · left
        exact Nat.le_trans ht.start_le (hover.indexAt_mono hmj)

end Over
end Input

/-- The trees that are built between ranks `p` and `q` lie there. -/
def Input.Fits (input : Input) (p q : Nat) (ts : List Concrete) : Prop :=
  p ≤ input.significant.size →
    p ≤ q ∧ q ≤ input.significant.size ∧ ∀ t ∈ ts, input.Within p q t

variable {input : Input} {tokens : Array Token} {p m q e : Nat} {r : Rule} {t u : Concrete}
  {ts us : List Concrete}

theorem Input.Forward.fits (h : input.Forward p q) : input.Fits p q [] :=
  fun hp => ⟨h.1, h.2 hp, by simp⟩

theorem Input.Sees.fits {k : Kind} (h : input.Sees p k) : input.Fits p (p + 1) [] :=
  Input.Forward.fits ⟨Nat.le_succ p, fun _ => h.lt_size⟩

theorem Expects.fits {k : Kind} (h : Expects input k p q e) : input.Fits p q [] := h.forward.fits

theorem EndsStatement.fits (h : EndsStatement input p q e) : input.Fits p q [] := h.forward.fits

namespace Input.Fits

theorem seq (hts : input.Fits p m ts) (hus : input.Fits m q us) (hover : input.Over tokens) :
    input.Fits p q (ts ++ us) := by
  intro hp
  obtain ⟨hpm, hm, hts⟩ := hts hp
  obtain ⟨hmq, hq, hus⟩ := hus hm
  refine ⟨Nat.le_trans hpm hmq, hq, ?_⟩
  intro t ht
  rcases List.mem_append.mp ht with ht | ht
  · exact hover.within_mono (hts t ht) (Nat.le_refl p) hmq hpm hq
  · exact hover.within_mono (hus t ht) hpm (Nat.le_refl q) hmq hq

/-- Tokens after the trees that belong to none of them. -/
theorem upTo (hts : input.Fits p m ts) (h : input.Fits m q []) (hover : input.Over tokens) :
    input.Fits p q ts := by
  simpa using hts.seq h hover

/-- A node that may be empty, so that no word belongs to it. -/
theorem node {kind : Kind} (h : input.Fits p q ts) (hover : input.Over tokens)
    (hkind : kind.isWordless = true) :
    input.Fits p q [input.nodeAt q kind (input.indexAt p) ts] := by
  intro hp
  obtain ⟨hpq, hq, hts⟩ := h hp
  exact ⟨hpq, hq, List.forall_mem_singleton.mpr
    (hover.within_nodeAt_index hpq hq hts (.of_isWordless hkind))⟩

/-- A node that begins with a token and goes on with trees. -/
theorem nodeAfter {k kind : Kind} (h : input.Fits (p + 1) q ts) (hover : input.Over tokens)
    (hsees : input.Sees p k) (hkind : kind.isOrdinary = true) :
    input.Fits p q [input.nodeAt q kind (input.indexAt p) ts] := by
  intro hp
  obtain ⟨hpq, hq, hts⟩ := hsees.fits.seq h hover hp
  refine ⟨hpq, hq, List.forall_mem_singleton.mpr
    (hover.within_nodeAt_index hpq hq hts (.of_isOrdinary hkind ?_))⟩
  exact hover.indexAt_lt_after_nodeAt hq (h hsees.lt_size).1 (Nat.le_refl _)

/-- A node that begins with its first child and goes on with a token. -/
theorem nodeFrom {k kind : Kind} (ht : input.Fits p m [t]) (hsees : input.Sees m k)
    (h : input.Fits (m + 1) q us) (hover : input.Over tokens) (hkind : kind.isJoint = true) :
    input.Fits p q [input.nodeAt q kind t.start (t :: us)] := by
  intro hp
  obtain ⟨hpm, _, ht⟩ := ht hp
  obtain ⟨hmq, hq, hus⟩ := hsees.fits.seq h hover (Nat.le_of_lt hsees.lt_size)
  have ht := List.forall_mem_singleton.mp ht
  refine ⟨Nat.le_trans hpm hmq, hq, List.forall_mem_singleton.mpr
    (hover.within_nodeAt_first hpm hmq hq ht hus (.of_isJoint hkind nofun ?_))⟩
  exact Nat.lt_of_le_of_lt ht.start_le
    (hover.indexAt_lt_after_nodeAt hq (h hsees.lt_size).1 ht.start_le)

/-- A call, whose parenthesis belongs to its arguments. -/
theorem call (ht : input.Fits p m [t]) (hu : input.Fits m q [u]) (hover : input.Over tokens) :
    input.Fits p q [input.nodeAt q .call t.start [t, u]] := by
  intro hp
  obtain ⟨hpm, hm, ht⟩ := ht hp
  obtain ⟨hmq, hq, hu⟩ := hu hm
  refine ⟨Nat.le_trans hpm hmq, hq, List.forall_mem_singleton.mpr ?_⟩
  exact hover.within_nodeAt_first hpm hmq hq (List.forall_mem_singleton.mp ht) hu
    (.of_isWordless rfl)

theorem around {kind : Kind} (h : input.Fits p q [t]) (hkind : kind.isWordless = true) :
    input.Fits p q [.inner kind t.start t.lastToken? [t]] := by
  intro hp
  obtain ⟨hpq, hq, ht⟩ := h hp
  exact ⟨hpq, hq, List.forall_mem_singleton.mpr
    (within_around hkind (List.forall_mem_singleton.mp ht))⟩

theorem leafAt {k tag : Kind} (h : input.Sees p k) (htag : tag = k ∨ tag = .identifier)
    (hover : input.Over tokens) : input.Fits p (p + 1) [input.leafAt p tag] :=
  fun _ => ⟨Nat.le_succ p, h.lt_size, List.forall_mem_singleton.mpr (hover.within_leafAt h htag)⟩

theorem absentAt {kind : Kind} (hover : input.Over tokens) (hkind : kind.isWordless = true) :
    input.Fits p p [.absent kind (input.indexAt p)] :=
  fun hp => ⟨Nat.le_refl p, hp, List.forall_mem_singleton.mpr
    (hover.within_absent hkind (hover.afterAt_le_indexAt p) (Nat.le_refl _))⟩

theorem missingAt {tag : Kind} (hover : input.Over tokens) (htag : r.missingTag? = some tag) :
    input.Fits p p [input.missingAt p tag] := by
  have hkind : tag.isWordless = true := by
    cases r <;> cases htag <;> rfl
  exact fun hp => ⟨Nat.le_refl p, hp, List.forall_mem_singleton.mpr (hover.within_missingAt hkind)⟩

theorem empty : input.Fits p p [] := Input.Forward.fits ⟨Nat.le_refl p, id⟩

end Input.Fits

theorem isOrdinary_of_leadingOperator? {k tag : Kind}
    (h : Production.leadingOperator? k = some tag) : tag.isOrdinary = true := by
  unfold Production.leadingOperator? at h
  split at h <;> cases h <;> rfl

theorem isJoint_of_trailingOperator? {k tag : Kind}
    (h : Production.trailingOperator? k = some tag) : tag.isJoint = true := by
  unfold Production.trailingOperator? at h
  split at h <;> cases h <;> rfl

theorem isJoint_of_accessTag? {k tag : Kind} (h : Rule.accessTag? k = some tag) :
    tag.isJoint = true := by
  unfold Rule.accessTag? at h
  split at h <;> cases h <;> rfl

theorem isJoint_of_precedence {k : Kind} {precedence : Precedence}
    (h : k.binaryPrecedence? = some precedence) : k.isJoint = true := by
  cases k <;> first | rfl | cases h

theorem isJoint_of_assignment {k : Kind} (h : k.isAssignmentOperator = true) :
    k.isJoint = true := by
  cases k <;> first | rfl | cases h

/-- A token that has to be there has a leaf, unless it is missing. -/
theorem Derives.required_text {k : Kind} (h : Derives input (.required k) p q e ts) :
    ∀ t ∈ ts, t.text ≠ none := by
  cases h with
  | leaf _ htag => cases htag
  | missing htag => cases htag
  | present => exact List.forall_mem_singleton.mpr nofun
  | lacking => nofun

/-- A statement that sets the default XML namespace. Only the last of its trees may be empty. -/
theorem Input.Fits.namespaceNode (hover : input.Over tokens)
    (hsees : input.Sees p .defaultKeyword) (hxml : input.Sees (p + 1) .xmlKeyword)
    (hts : input.Fits (p + 2) q (ts ++ [t])) (hwords : ∀ u ∈ ts, u.text ≠ none) :
    input.Fits p q [input.nodeAt q .defaultXmlNamespace (input.indexAt p)
      (input.leafAt p .defaultKeyword :: input.leafAt (p + 1) .xmlKeyword :: (ts ++ [t]))] := by
  intro hp
  have hfits := (leafAt hsees (.inl rfl) hover).seq
    ((leafAt hxml (.inl rfl) hover).seq hts hover) hover
  obtain ⟨hpq, hq, hall⟩ := hfits hp
  refine ⟨hpq, hq, List.forall_mem_singleton.mpr
    (hover.within_nodeAt_index hpq hq hall ⟨nofun, nofun, fun _ => ?_⟩)⟩
  dsimp only [nodeAt, Concrete.inner]
  rw [← List.cons_append, ← List.cons_append, List.dropLast_concat]
  exact List.forall_mem_cons.mpr ⟨nofun, List.forall_mem_cons.mpr ⟨nofun, hwords⟩⟩

open Input.Fits in
theorem Derives.fits (hover : input.Over tokens) (h : Derives input r p q e ts) :
    input.Fits p q ts := by
  induction h with
  | one _ ih | something _ ih | lastMember _ ih | functionOperand _ ih | primaryOf _ ih
  | memberOf _ ih | trailingOf _ ih | unaryOf _ ih | binaryOf _ ih | conditionalOf _ ih
  | assignmentOf _ ih | expressionOf _ ih | declared _ ih | initialOf _ ih
  | initialVariables _ ih | blockStatement _ ih | functionStatement _ ih
  | nullStatement _ _ ih => exact ih
  | nothing | lacking | noMoreItems | noMoreMembers | xmlBroken | noMoreStatements | noElse
  | noMoreClauses | noMoreCatches => exact empty
  | leaf hsees htag => exact leafAt hsees ((leafTag?_cases htag).symm.imp_left And.left) hover
  | present hsees | xmlLast hsees => exact leafAt hsees (.inl rfl) hover
  | missing htag => exact missingAt hover htag
  | noClause => exact absentAt hover rfl
  | clauseOf _ ih | lastItem _ ih => exact ih.around rfl
  | more _ hcomma _ ih₁ ih₂ | nextMember _ hcomma _ ih₁ ih₂ =>
    exact ih₁.seq (hcomma.fits.seq ih₂ hover) hover
  | item _ hcomma _ ih₁ ih₂ => exact (ih₁.around rfl).seq (hcomma.fits.seq ih₂ hover) hover
  | hole hcomma _ ih => exact (absentAt hover rfl).seq (hcomma.fits.seq ih hover) hover
  | noItems hopen hclose => exact (hopen.fits.seq hclose.fits hover).node hover rfl
  | someItems hopen _ hclose ih | block hopen _ hclose ih =>
    exact (hopen.fits.seq (ih.upTo hclose.fits hover) hover).node hover rfl
  | xmlText hsees _ ih => exact (leafAt hsees (.inl rfl) hover).seq ih hover
  | xmlEmbedded hopen _ hclose _ ih₁ ih₂ =>
    exact hopen.fits.seq (ih₁.seq (hclose.fits.seq ih₂ hover) hover) hover
  | nextStatement _ _ _ ih₁ ih₂ | nextClause _ _ ih₁ ih₂ | nextCatch _ _ ih₁ ih₂ =>
    exact ih₁.seq ih₂ hover
  | skipped _ hle hbound _ _ ih | strayTokens hle hbound _ ih =>
    exact (Input.Forward.fits ⟨hle, fun _ => hbound⟩).seq ih hover
  | paren hopen _ hclose ih | array hopen _ hclose ih | object hopen _ hclose ih =>
    exact (ih.upTo hclose.fits hover).nodeAfter hover hopen rfl
  | propertyInit _ hcolon _ ih₁ ih₂ =>
    exact (ih₁.seq (hcolon.fits.seq ih₂ hover) hover).node hover rfl
  | getter hsees _ hopen hclose _ ih₁ ih₂ =>
    exact (ih₁.seq (hopen.fits.seq (hclose.fits.seq ih₂ hover) hover) hover).nodeAfter
      hover hsees rfl
  | setter hsees _ hopen _ hclose _ ih₁ ih₂ ih₃ =>
    exact (ih₁.seq (hopen.fits.seq (ih₂.seq (hclose.fits.seq ih₃ hover) hover) hover)
      hover).nodeAfter hover hsees rfl
  | xml _ _ ih => exact ih.node hover rfl
  | invalid hsees _ ih => exact hsees.fits.seq ih hover
  | named hsees hname _ _ _ ih₁ ih₂ =>
    exact ((leafAt hname (.inr rfl) hover).seq (ih₁.seq ih₂ hover) hover).nodeAfter hover hsees rfl
  | unnamed hsees _ _ ih₁ ih₂ => exact (ih₁.seq ih₂ hover).nodeAfter hover hsees rfl
  | new hsees _ ih => exact ih.nodeAfter hover hsees rfl
  | leading hsees htag _ ih => exact ih.nodeAfter hover hsees (isOrdinary_of_leadingOperator? htag)
  | newCall hsees _ _ _ ih₁ ih₂ => exact (ih₁.call ih₂ hover).nodeAfter hover hsees rfl
  | access _ hsees htag _ ih₁ ih₂ =>
    exact ih₁.nodeFrom hsees ih₂ hover (isJoint_of_accessTag? htag)
  | index _ hsees _ hclose ih₁ ih₂ =>
    exact ih₁.nodeFrom hsees (ih₂.upTo hclose.fits hover) hover rfl
  | call _ _ _ ih₁ ih₂ => exact ih₁.call ih₂ hover
  | trailed _ hsees htag _ ih =>
    exact ih.nodeFrom hsees empty hover (isJoint_of_trailingOperator? htag)
  | operate _ hsees hprecedence _ _ _ ih₁ ih₂ =>
    exact ih₁.nodeFrom hsees ih₂ hover (isJoint_of_precedence hprecedence)
  | assign _ hsees hassigns _ ih₁ ih₂ =>
    exact ih₁.nodeFrom hsees ih₂ hover (isJoint_of_assignment hassigns)
  | commas _ hsees _ ih₁ ih₂ | initialized _ hsees _ ih₁ ih₂ =>
    exact ih₁.nodeFrom hsees ih₂ hover rfl
  | choose _ hquestion _ hcolon _ ih₁ ih₂ ih₃ =>
    exact ih₁.nodeFrom hquestion (ih₂.seq (hcolon.fits.seq ih₃ hover) hover) hover rfl
  | yield hsees _ _ ih | declaration hsees _ ih | filter hsees _ ih | finalClause hsees _ ih =>
    exact ih.nodeAfter hover hsees rfl
  | condition hopen _ hclose ih => exact hopen.fits.seq (ih.upTo hclose.fits hover) hover
  | orElse hsees _ ih => exact hsees.fits.seq ih hover
  | steps _ hfirst _ hsecond _ ih₁ ih₂ ih₃ =>
    have hsteps := ih₂.seq (hsecond.fits.seq ih₃ hover) hover
    exact (ih₁.seq (hfirst.fits.seq hsteps hover) hover).node hover rfl
  | iterate _ hsees _ ih₁ ih₂ =>
    exact (ih₁.seq (hsees.fits.seq ih₂ hover) hover).node hover rfl
  | caseClause hsees _ hcolon _ ih₁ ih₂ =>
    exact (ih₁.seq (hcolon.fits.seq ih₂ hover) hover).nodeAfter hover hsees rfl
  | defaultClause hsees hcolon _ ih =>
    exact (hcolon.fits.seq ih hover).nodeAfter hover hsees rfl
  | catchClause hsees hopen _ _ hclose _ ih₁ ih₂ ih₃ =>
    exact (hopen.fits.seq (ih₁.seq (ih₂.seq (hclose.fits.seq ih₃ hover) hover) hover)
      hover).nodeAfter hover hsees rfl
  | emptyStatement hsees =>
    rw [← Input.nodeAt_succ hsees.lt_size]
    exact hsees.fits.node hover rfl
  | variableStatement _ hend ih | expressionStatement _ _ _ hend ih => exact ih.upTo hend.fits hover
  | constStatement hsees _ hend ih | throwStatement hsees _ hend ih
  | returnStatement hsees _ _ hend ih =>
    exact (ih.upTo hend.fits hover).nodeAfter hover hsees rfl
  | ifStatement hsees _ _ _ ih₁ ih₂ ih₃ =>
    exact (ih₁.seq (ih₂.seq ih₃ hover) hover).nodeAfter hover hsees rfl
  | doStatement hsees _ hwhile _ hend ih₁ ih₂ =>
    exact (ih₁.seq (hwhile.fits.seq (ih₂.upTo hend.forward.fits hover) hover) hover).nodeAfter
      hover hsees rfl
  | whileStatement hsees _ _ ih₁ ih₂ | withStatement hsees _ _ ih₁ ih₂ =>
    exact (ih₁.seq ih₂ hover).nodeAfter hover hsees rfl
  | @forStatement p each m₁ _ _ _ iterates _ _ _ _ _ _ hsees heach hopen _ hclose _ ih₁ ih₂ =>
    have hhead : input.Fits (p + 1) m₁ [] := by
      cases each with
      | true => exact (heach rfl).fits.seq hopen.fits hover
      | false => exact hopen.fits
    refine (hhead.seq (ih₁.seq (hclose.fits.seq ih₂ hover) hover) hover).nodeAfter hover hsees ?_
    split <;> rfl
  | jumpStatement hsees hk _ _ hend ih =>
    refine (ih.upTo hend.fits hover).nodeAfter hover hsees ?_
    rcases hk with rfl | rfl <;> rfl
  | switchStatement hsees _ hopen _ hclose ih₁ ih₂ =>
    exact (ih₁.seq (hopen.fits.seq (ih₂.upTo hclose.fits hover) hover) hover).nodeAfter
      hover hsees rfl
  | tryStatement hsees _ _ _ ih₁ ih₂ ih₃ =>
    exact (ih₁.seq (ih₂.seq ih₃ hover) hover).nodeAfter hover hsees rfl
  | namespaceStatement hsees hxml hns hes _ hend ih₁ ih₂ ih₃ =>
    refine namespaceNode hover hsees hxml
      ((ih₁.seq ih₂ hover).seq (ih₃.upTo hend.fits hover) hover) ?_
    exact List.forall_mem_append.mpr ⟨hns.required_text, hes.required_text⟩
  | labelledStatement hsees _ hcolon _ ih =>
    exact ((leafAt hsees (.inr rfl) hover).seq (hcolon.fits.seq ih hover) hover).node hover rfl

/-- A token of kind `k` stands between two trees. -/
def Input.Between (input : Input) (k : Kind) (a b : Concrete) : Prop :=
  ∃ m, input.Sees m k ∧ a.after ≤ input.indexAt m ∧ input.indexAt m < b.start

/-- Rules for lists with commas. -/
def Rule.isCommaList : Rule → Bool
  | .separated _ | .items | .members => true
  | _ => false

namespace Input.Fits

theorem start_gt {k : Kind} (h : input.Fits (m + 1) q ts) (hsees : input.Sees m k)
    (ht : t ∈ ts) : input.indexAt m < t.start := by
  have hstart := ((h hsees.lt_size).2.2 t ht).start_ge
  rwa [afterAt_succ hsees.lt_size] at hstart

theorem after_le (h : input.Fits p m [t]) (hover : input.Over tokens)
    (hp : p ≤ input.significant.size) : t.after ≤ input.indexAt m :=
  hover.after_le ((h hp).2.2 t List.mem_cons_self)

theorem start_le (h : input.Fits p m [t]) (hp : p ≤ input.significant.size) :
    t.start ≤ input.indexAt m :=
  ((h hp).2.2 t List.mem_cons_self).start_le

theorem between {k : Kind} (ht : input.Fits p m [t]) (hsees : input.Sees m k)
    (hu : input.Fits (m + 1) q (u :: us)) (hover : input.Over tokens)
    (hp : p ≤ input.significant.size) : input.Between k t u :=
  ⟨m, hsees, ht.after_le hover hp, hu.start_gt hsees List.mem_cons_self⟩

theorem chain_cons (hcomma : input.Sees m .comma) (ht : t.after ≤ input.indexAt m)
    (hfits : input.Fits (m + 1) q ts) (hts : ts.IsChain (input.Between .comma)) :
    (t :: ts).IsChain (input.Between .comma) := by
  cases ts with
  | nil => exact .singleton t
  | cons u us => exact .cons_cons ⟨m, hcomma, ht, hfits.start_gt hcomma List.mem_cons_self⟩ hts

end Input.Fits

/-- Between neighbours in a list there is a comma, in text with faults too. -/
theorem Derives.commas_between (hover : input.Over tokens) (h : Derives input r p q e ts)
    (hr : r.isCommaList = true) (hp : p ≤ input.significant.size) :
    ts.IsChain (input.Between .comma) := by
  induction h with
  | more hd hcomma hmore _ ih =>
    exact Input.Fits.chain_cons hcomma ((hd.fits hover).after_le hover hp)
      (hmore.fits hover) (ih rfl hcomma.lt_size)
  | nextMember hd hcomma hmore _ ih =>
    exact Input.Fits.chain_cons hcomma ((hd.fits hover).after_le hover hp)
      (hmore.fits hover) (ih rfl hcomma.lt_size)
  | item hd hcomma hmore _ ih =>
    exact Input.Fits.chain_cons hcomma (((hd.fits hover).around rfl).after_le hover hp)
      (hmore.fits hover) (ih rfl hcomma.lt_size)
  | hole hcomma hmore ih =>
    exact Input.Fits.chain_cons hcomma (Nat.le_of_eq (Concrete.after_absent _ _))
      (hmore.fits hover) (ih rfl hcomma.lt_size)
  | one | lastItem | lastMember | leaf | missing => exact .singleton _
  | noMoreItems | noMoreMembers => exact .nil
  | _ => cases hr

end ScriptTree
