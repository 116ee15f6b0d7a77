import FlowRecovery.Proofs.Lists
import FlowRecovery.Proofs.Locality

/-!
# What lies before the end of a composite statement

A composite statement covers what is inside it if nothing there starts behind its end
(`Statement.Covers`). It does so when another statement stands behind it in its list: its end was
resolved to that statement then, and everything inside it starts before (`Laid`, the order of the code at
all depths). A statement that stands last in its list need not: the end of the list may
stand for an end further in front, and so can what the last statement of a body became.

So all composite statements of a body cover what is inside them exactly if those do that stand last in
their lists (`Listing.covers_iff`), and there are bodies in which one of these does not
(`Listing.not_covers_overreach`).
-/

namespace FlowRecovery

namespace Statement

mutual

/-- Where a statement and the statements inside it start. -/
def starts : Statement → List Offset
  | plain start .. => [start]
  | escape start .. => [start]
  | composite start _ _ _ _ children => start :: startsOf children

/-- Where the statements of a list and the statements inside them start. -/
def startsOf : List Statement → List Offset
  | [] => []
  | s :: rest => starts s ++ startsOf rest

end

/-- Nothing inside a composite statement starts behind its end. -/
def Covers : Statement → Prop
  | composite _ _ _ stop _ children => ∀ o ∈ startsOf children, o ≤ stop
  | _ => True

instance : DecidablePred Covers
  | plain .. => .isTrue trivial
  | escape .. => .isTrue trivial
  | composite _ _ _ stop _ children => inferInstanceAs (Decidable (∀ o ∈ startsOf children, o ≤ stop))

variable {s : Statement} {l m : List Statement} {o : Offset}

theorem mem_startsOf : o ∈ startsOf l ↔ ∃ s ∈ l, o ∈ s.starts := by
  induction l with
  | nil => simp [startsOf]
  | cons s rest ih => simp [startsOf, ih]

theorem startsOf_mono (h : ∀ s ∈ l, s ∈ m) (ho : o ∈ startsOf l) : o ∈ startsOf m := by
  obtain ⟨s, hs, ho⟩ := mem_startsOf.1 ho
  exact mem_startsOf.2 ⟨s, h s hs, ho⟩

theorem startsOf_cons_subset {s' : Statement} (hs : s.starts ⊆ s'.starts)
    (hl : startsOf l ⊆ startsOf m) : startsOf (s :: l) ⊆ startsOf (s' :: m) :=
  List.append_subset.2 ⟨List.subset_append_of_subset_left _ hs, List.subset_append_of_subset_right _ hl⟩

theorem start_mem_starts (s : Statement) : s.start ∈ s.starts := by
  cases s <;> simp [start, starts]

mutual

theorem starts_adopt (scope : Scope) : (s : Statement) → (s.adopt scope).starts = s.starts
  | plain .. => rfl
  | escape .. => rfl
  | composite _ _ _ _ _ children => by
    rw [adopt, starts, starts, startsOf_adoptAll _ children]

theorem startsOf_adoptAll (scope : Scope) :
    (l : List Statement) → startsOf (adoptAll scope l) = startsOf l
  | [] => rfl
  | s :: rest => by
    rw [adoptAll, startsOf, startsOf, starts_adopt scope s, startsOf_adoptAll scope rest]

end

mutual

theorem starts_withoutPops : (s : Statement) → s.withoutPops.starts ⊆ s.starts
  | plain .. => List.Subset.refl _
  | escape .. => List.Subset.refl _
  | composite _ _ _ _ _ children => List.cons_subset_cons _ (startsOf_removePops children)

theorem startsOf_removePops : (l : List Statement) → startsOf (removePops l) ⊆ startsOf l
  | [] => List.Subset.refl _
  | s :: rest => by
    have ih := startsOf_removePops rest
    rw [removePops]
    split
    · exact List.subset_append_of_subset_right _ ih
    · exact startsOf_cons_subset (starts_withoutPops s) ih

end

theorem startsOf_breaksTo (stop : Offset) (scope : Scope) :
    ∀ (l : List Statement) (afterReturn : Bool),
      startsOf (breaksTo stop scope afterReturn l) ⊆ startsOf l
  | [], _ => List.Subset.refl _
  | s :: rest, afterReturn => by
    have ih := startsOf_breaksTo stop scope rest
    rw [breaksTo]
    split
    · split
      · exact List.subset_append_of_subset_right _ (ih true)
      · refine startsOf_cons_subset ?_ (ih false)
        simp [starts, start_mem_starts]
    · exact startsOf_cons_subset (List.Subset.refl _) (ih _)

end Statement

namespace Block

open Statement

/-! ### Structuring adds no offset -/

theorem startsOf_tidy (head : Head) (start stop : Offset) (b : Block) :
    startsOf (b.tidy head start stop).statements ⊆ startsOf b.statements := by
  have trim (p : Token → Bool) (b : Block) : startsOf (b.trimLast p).statements ⊆ startsOf b.statements :=
    fun _ => startsOf_mono fun _ => mem_trimLast
  cases head with
  | ifHead | elseHead => exact List.Subset.refl _
  | whileHead => exact trim _ b
  | foreachHead => exact List.Subset.trans (startsOf_removePops _) (List.Subset.trans (trim _ _) (trim _ b))
  | switchHead => exact List.Subset.trans (trim _ _) (startsOf_breaksTo stop b.scope b.statements false)

/-- What is left of statements as the children of a composite statement. -/
def childrenOf (scope : Scope) (start : Offset) (head : Head) (stop : Offset) (l : List Statement) :
    List Statement :=
  ((recovered ⟨⟨head.kind, start, stop⟩ :: scope, adoptAll (⟨head.kind, start, stop⟩ :: scope) l⟩).tidy
    head start stop).statements

theorem finished_adopt_wrap (scope : Scope) (start : Offset) (head : Head) (l : List Statement)
    (stop : Offset) :
    ((wrap start head l stop).adopt scope).finished =
      .composite start scope head stop (⟨head.kind, start, stop⟩ :: scope)
        (childrenOf scope start head stop l) := by
  rw [adopt_wrap]
  rfl

theorem startsOf_recovered (b : Block) : startsOf b.recovered.statements ⊆ startsOf b.statements := by
  refine recovered_induction (P := fun b c => startsOf c.statements ⊆ startsOf b.statements)
    (fun _ _ => List.Subset.refl _) (fun b r hr inner ih => List.Subset.trans ih fun o ho => ?_) b
  obtain ⟨i, hi⟩ := rewriteAt_of_firstRewrite? hr
  obtain ⟨s, hs, ho⟩ := mem_startsOf.1 ho
  simp only [rewritten, List.mem_append] at hs
  rcases hs with (hs | hs) | hs
  · exact mem_startsOf.2 ⟨s, List.mem_of_mem_take hs, ho⟩
  · have hstart : s.start ∈ startsOf b.statements := by
      have := hi.sublist_made.subset (map_start_finished_adopt b.scope r.made ▸ List.mem_map_of_mem hs)
      obtain ⟨x, hx, hxs⟩ := List.mem_map.1 this
      exact mem_startsOf.2 ⟨x, mem_of_mem_slice hx, hxs ▸ start_mem_starts x⟩
    obtain ⟨m, hm, rfl⟩ := List.mem_map.1 hs
    cases m with
    | plain | escape => exact List.mem_singleton.1 ho ▸ hstart
    | composite start scope head stop frames children =>
      rcases List.mem_cons.1 ho with rfl | ho
      · exact hstart
      · obtain ⟨rfl, l, hlen, hl, rfl⟩ := hi.mem_of_wrap hm
        exact startsOf_mono hl (startsOf_adoptAll _ l ▸
          inner ⟨_, _⟩ (by simpa [length] using hlen) (startsOf_tidy head start stop _ ho))
  · exact mem_startsOf.2 ⟨s, List.mem_of_mem_drop hs, ho⟩

theorem startsOf_childrenOf (scope : Scope) (start : Offset) (head : Head) (stop : Offset)
    (l : List Statement) : startsOf (childrenOf scope start head stop l) ⊆ startsOf l := by
  rw [← startsOf_adoptAll (⟨head.kind, start, stop⟩ :: scope) l]
  exact List.Subset.trans (startsOf_tidy head start stop _) (startsOf_recovered _)

/-! ### The order of the code at all depths -/

/-- Statements in the order of the code, together with what is inside them. -/
structure Laid (l : List Statement) : Prop where
  /-- Nothing inside a statement starts before it. -/
  inside : ∀ s ∈ l, ∀ o ∈ s.starts, s.start ≤ o
  /-- Everything inside a statement starts before the statements behind it. -/
  before : l.Pairwise fun s s' => ∀ o ∈ s.starts, o < s'.start

variable {s : Statement} {l m front behind kids : List Statement} {o : Offset}

theorem Laid.sublist (h : Laid m) (hl : l.Sublist m) : Laid l :=
  ⟨fun s hs => h.inside s (hl.subset hs), h.before.sublist hl⟩

theorem Laid.adoptAll (h : Laid l) (scope : Scope) : Laid (adoptAll scope l) := by
  rw [adoptAll_eq_map]
  refine ⟨fun s hs => ?_, List.pairwise_map.2 (h.before.imp fun hlt => ?_)⟩
  · obtain ⟨x, hx, rfl⟩ := List.mem_map.1 hs
    rw [starts_adopt, start_adopt]
    exact h.inside x hx
  · rwa [starts_adopt, start_adopt]

theorem Laid.lt_of_append (h : Laid (l ++ m)) (ho : o ∈ startsOf l) (hs : s ∈ m) : o < s.start := by
  obtain ⟨x, hx, ho⟩ := mem_startsOf.1 ho
  exact (List.pairwise_append.1 h.before).2.2 x hx s hs o ho

/-- A run of statements may give way to others that are in order and add no offset. -/
theorem Laid.replace {mid mid' : List Statement} (h : Laid (front ++ (mid ++ behind)))
    (made : Laid mid') (sub : startsOf mid' ⊆ startsOf mid) : Laid (front ++ (mid' ++ behind)) := by
  have frontLaid := h.sublist (List.sublist_append_left ..)
  have restLaid := h.sublist (List.sublist_append_right ..)
  have behindLaid := restLaid.sublist (List.sublist_append_right ..)
  constructor
  · intro s hs
    rcases List.mem_append.1 hs with hs | hs
    · exact frontLaid.inside s hs
    · rcases List.mem_append.1 hs with hs | hs
      · exact made.inside s hs
      · exact behindLaid.inside s hs
  · refine List.pairwise_append.2 ⟨frontLaid.before, List.pairwise_append.2
      ⟨made.before, behindLaid.before, fun s hs s' hs' o ho => ?_⟩, fun s hs s' hs' o ho => ?_⟩
    · exact restLaid.lt_of_append (sub (mem_startsOf.2 ⟨s, hs, ho⟩)) hs'
    · have ho := mem_startsOf.2 ⟨s, hs, ho⟩
      rcases List.mem_append.1 hs' with hs' | hs'
      · obtain ⟨x, hx, hstart⟩ := mem_startsOf.1 (sub (mem_startsOf.2 ⟨s', hs', start_mem_starts s'⟩))
        have hmem : x ∈ mid ++ behind := List.mem_append_left _ hx
        exact Nat.lt_of_lt_of_le (h.lt_of_append ho hmem) (restLaid.inside x hmem _ hstart)
      · exact h.lt_of_append ho (List.mem_append_right _ hs')

/-- A composite statement in the place of a run of statements. -/
theorem Laid.single {start stop : Offset} {scope inner : Scope} {head : Head} (h : Laid (s :: l))
    (hstart : s.start = start) (sub : startsOf kids ⊆ startsOf (s :: l)) :
    Laid [.composite start scope head stop inner kids] ∧
      startsOf [.composite start scope head stop inner kids] ⊆ startsOf (s :: l) := by
  subst hstart
  have least : ∀ o ∈ startsOf (s :: l), s.start ≤ o := by
    intro o ho
    obtain ⟨x, hx, ho⟩ := mem_startsOf.1 ho
    refine Nat.le_trans ?_ (h.inside x hx o ho)
    rcases List.mem_cons.1 hx with rfl | hx
    · exact Nat.le_refl _
    · exact Nat.le_of_lt ((List.pairwise_cons.1 h.before).1 x hx _ (start_mem_starts s))
  have sub' : startsOf [.composite s.start scope head stop inner kids] ⊆ startsOf (s :: l) := by
    rw [startsOf, starts, startsOf, List.append_nil]
    exact List.cons_subset.2 ⟨mem_startsOf.2 ⟨s, List.mem_cons_self .., start_mem_starts s⟩, sub⟩
  refine ⟨⟨fun x hx o ho => ?_, List.pairwise_singleton ..⟩, sub'⟩
  obtain rfl := List.mem_singleton.1 hx
  exact least o (sub' (mem_startsOf.2 ⟨_, List.mem_singleton.2 rfl, ho⟩))

/-! ### The shapes of rewrites -/

/-- What a rewrite replaces and makes, and where the new statements end if something stands behind
them. -/
inductive Shape (b : Block) : Rewrite → Prop where
  /-- An escape. -/
  | escape {first i : Nat} {how : Escape} {token : Token} (le : first ≤ i) (lt : i < b.length) :
      Shape b ⟨first, i + 1, [.escape (b.startAt i) [] how token]⟩
  /-- A composite statement over all statements behind the first. -/
  | single {i after : Nat} {head : Head} {stop : Offset} (lt : i < after) (le : after ≤ b.length)
      (ends : ∀ s, b.statements[after]? = some s → ∀ o < s.start, o ≤ stop) :
      Shape b ⟨i, after, [.wrap (b.startAt i) head (b.slice (i + 1) after) stop]⟩
  /-- Two branches. -/
  | pair {i split after : Nat} {condition : Token} {stop : Offset} (lt : i + 1 < split)
      (lt' : split < after) (le : after ≤ b.length)
      (ends : ∀ s, b.statements[after]? = some s → ∀ o < s.start, o ≤ stop) :
      Shape b
        ⟨i, after,
          [.wrap (b.startAt i) (.ifHead condition) (b.slice (i + 1) (split - 1))
            (b.startAt (split - 1)),
           .wrap (b.startAt split) .elseHead (b.slice split after) stop]⟩

theorem start_of_find? {b : Block} {target : Offset} {first k : Nat} (h : b.find? target first = some k)
    (hs : b.statements[k]? = some s) : s.start = target := by
  rcases find?_eq_some_iff.1 h with ⟨-, rfl⟩ | ⟨-, -, hstart, -⟩
  · exact absurd (List.getElem?_eq_some_iff.1 hs).1 (Nat.lt_irrefl _)
  · rw [hs, Option.map_some, Option.some.injEq] at hstart
    exact hstart

theorem start_of_openSelectionEnd {b : Block} {first after : Nat} {stop : Offset}
    (h : b.openSelectionEnd first = (after, stop)) (hs : b.statements[after]? = some s) :
    s.start = stop := by
  have off (hs : b.statements[b.length]? = some s) : s.start = stop :=
    absurd (List.getElem?_eq_some_iff.1 hs).1 (Nat.lt_irrefl _)
  unfold openSelectionEnd at h
  split at h
  · next x hx =>
    split at h
    · cases h
      rw [length, ← List.getLast?_eq_getElem?, ← last?, hx] at hs
      cases hs
      rfl
    · cases h
      exact off hs
  · cases h
    exact off hs

/-- The end of a selection is that of the statement behind it, if there is one. -/
theorem start_of_selectionEndFrom? {b : Block} {first after : Nat} {stop : Offset}
    (hs : b.statements[after]? = some s) :
    ∀ {rest : List Statement} {previous : Statement} {j : Nat},
      b.selectionEndFrom? first previous j rest = some (after, stop) → s.start = stop := by
  intro rest
  induction rest with
  | nil => exact fun h => start_of_openSelectionEnd (Option.some.inj h) hs
  | cons x rest ih =>
    intro previous j h
    unfold selectionEndFrom? at h
    split at h
    · cases h
    · split at h
      · obtain ⟨k, hk, hpair⟩ := Option.map_eq_some_iff.1 h
        cases hpair
        exact start_of_find? hk hs
      · exact ih h

theorem RewriteAt.shape {b : Block} {i : Nat} {r : Rewrite} (h : RewriteAt b i r) : Shape b r := by
  obtain ⟨hlt, hle⟩ := h.bounds
  cases h with
  | conditional _ found | loop _ found =>
    exact .single hlt hle fun s hs o ho => start_of_find? found hs ▸ Nat.le_of_lt ho
  | @alternative _ _ _ split after token found forward across _ second =>
    obtain ⟨hlt', -, -, found'⟩ := lt_of_secondBranchEnd? second
    refine .pair ?_ hlt' hle fun s hs o ho => start_of_find? found' hs ▸ Nat.le_of_lt ho
    rcases Nat.lt_or_eq_of_le (Nat.succ_le_of_lt forward) with hlt | rfl
    · exact hlt
    · rw [Nat.succ_sub_one, token] at across
      cases across
  | leave token => exact .escape (Nat.le_refl i) (lt_length_of_tokenAt? token)
  | advance token => exact .escape (Nat.sub_le i 1) (lt_length_of_tokenAt? token)
  | iteration _ next found =>
    refine .single hlt hle fun s hs o ho => ?_
    have hnext := Offset.val_of_next? next
    have ho := Fin.lt_def.1 (start_of_find? found hs ▸ ho)
    exact Fin.le_def.2 (by omega)
  | selection here _ ends =>
    rw [← startAt_of_getElem? here]
    exact .single hlt hle fun s hs o ho => start_of_selectionEndFrom? hs ends ▸ Nat.le_of_lt ho

theorem statements_rewritten (b : Block) (r : Rewrite) :
    (b.rewritten r).statements =
      b.statements.take r.first ++
        ((Statement.adoptAll b.scope r.made).map Statement.finished ++ b.statements.drop r.after) := by
  rw [rewritten, List.append_assoc]

theorem slice_sublist_slice (b : Block) {i k j n : Nat} (hik : i ≤ k) (hjn : j ≤ n) :
    (b.slice k j).Sublist (b.slice i n) := by
  by_cases hkj : k ≤ j
  · rw [b.slice_append hik (Nat.le_trans hkj hjn), b.slice_append hkj hjn]
    exact (List.sublist_append_left ..).trans (List.sublist_append_right ..)
  · rw [slice, show j - k = 0 by omega, List.take_zero]
    exact List.nil_sublist _

/-- The composite statement that a run of statements gives way to. -/
theorem Laid.wrap {b : Block} {i k j n : Nat} (h : Laid (b.slice i n)) (hin : i < n)
    (hnb : n ≤ b.length) (hik : i ≤ k) (hjn : j ≤ n) (scope : Scope) (head : Head) (stop : Offset) :
    Laid [((Statement.wrap (b.startAt i) head (b.slice k j) stop).adopt scope).finished] ∧
      startsOf [((Statement.wrap (b.startAt i) head (b.slice k j) stop).adopt scope).finished] ⊆
        startsOf (b.slice i n) := by
  obtain ⟨x, hx⟩ : ∃ x, b.statements[i]? = some x :=
    ⟨_, List.getElem?_eq_getElem (Nat.lt_of_lt_of_le hin hnb)⟩
  have sub : startsOf (b.slice k j) ⊆ startsOf (b.slice i n) :=
    fun _ => startsOf_mono (b.slice_sublist_slice hik hjn).subset
  rw [finished_adopt_wrap]
  rw [slice_cons hx hin] at h sub ⊢
  exact h.single (startAt_of_getElem? hx).symm (List.Subset.trans (startsOf_childrenOf ..) sub)

/-- A pass keeps the order of the code. -/
theorem Shape.laid_rewritten {b : Block} {r : Rewrite} (h : Shape b r) (laid : Laid b.statements) :
    Laid (b.rewritten r).statements := by
  rw [statements_rewritten]
  cases h with
  | @escape first i how token le lt =>
    rw [← b.take_slice_drop (show first ≤ i + 1 by omega)] at laid
    obtain ⟨x, hx⟩ : ∃ x, b.statements[i]? = some x := ⟨_, List.getElem?_eq_getElem lt⟩
    have hmem : x ∈ b.slice first (i + 1) := by
      refine List.mem_of_getElem? (i := i - first) ?_
      rwa [getElem?_slice (by omega), show first + (i - first) = i by omega]
    rw [startAt_of_getElem? hx]
    refine laid.replace ⟨?_, List.pairwise_singleton ..⟩ ?_
    · intro s hs o ho
      cases List.mem_singleton.1 hs
      cases List.mem_singleton.1 ho
      exact Nat.le_refl _
    · exact List.cons_subset.2 ⟨mem_startsOf.2 ⟨x, hmem, start_mem_starts x⟩, List.nil_subset _⟩
  | @single i after head stop lt le =>
    rw [← b.take_slice_drop (Nat.le_of_lt lt)] at laid
    have run := (laid.sublist (List.sublist_append_right ..)).sublist (List.sublist_append_left ..)
    obtain ⟨made, sub⟩ := run.wrap lt le (Nat.le_succ i) (Nat.le_refl _) b.scope head stop
    exact laid.replace made sub
  | @pair i split after condition stop lt lt' le =>
    rw [← b.take_slice_drop (show i ≤ after by omega),
      b.slice_append (show i ≤ split by omega) (Nat.le_of_lt lt'), List.append_assoc] at laid
    have first := (laid.sublist (List.sublist_append_right ..)).sublist (List.sublist_append_left ..)
    obtain ⟨made, sub⟩ := first.wrap (show i < split by omega) (Nat.le_trans (Nat.le_of_lt lt') le)
      (Nat.le_succ i) (Nat.sub_le split 1) b.scope (.ifHead condition) (b.startAt (split - 1))
    have laid := laid.replace made sub
    rw [← List.append_assoc] at laid
    have second := (laid.sublist (List.sublist_append_right ..)).sublist (List.sublist_append_left ..)
    obtain ⟨made', sub'⟩ := second.wrap lt' le (Nat.le_refl _) (Nat.le_refl _) b.scope .elseHead stop
    have := laid.replace made' sub'
    simpa [Statement.adoptAll] using this

/-- Structuring keeps the order of the code, whatever the limit. -/
theorem laid_structureWithin (limit : Nat) {b : Block} (laid : Laid b.statements) :
    Laid (b.structureWithin limit).value.statements := by
  refine value_structureWithin_induction (R := fun b c => Laid b.statements → Laid c.statements)
    (fun _ => id) (fun h h' hb => h' (h hb)) (fun b r hr _ => ?_) limit b laid
  obtain ⟨i, hi⟩ := rewriteAt_of_firstRewrite? hr
  exact hi.shape.laid_rewritten

theorem laid_recovered {b : Block} (laid : Laid b.statements) : Laid b.recovered.statements :=
  laid_structureWithin (b.length + 1) laid

/-! ### Composite statements that are not the last -/

/-- Every statement with another one behind it covers what is inside it. -/
def Covered (l : List Statement) : Prop := l.Pairwise fun s _ => s.Covers

theorem covers_adopt {scope : Scope} (h : s.Covers) : (s.adopt scope).Covers := by
  cases s with
  | plain | escape => trivial
  | composite => rwa [adopt, Covers, startsOf_adoptAll]

theorem covers_withoutPops (h : s.Covers) : s.withoutPops.Covers := by
  cases s with
  | plain | escape => trivial
  | composite _ _ _ _ _ children => exact fun o ho => h o (startsOf_removePops children ho)

theorem Covered.adoptAll (scope : Scope) (h : Covered l) : Covered (adoptAll scope l) := by
  rw [adoptAll_eq_map]
  exact List.pairwise_map.2 (h.imp covers_adopt)

theorem Covered.removePops (h : Covered l) : Covered (removePops l) := by
  induction l with
  | nil => exact h
  | cons s rest ih =>
    obtain ⟨hs, hrest⟩ := List.pairwise_cons.1 h
    rw [Statement.removePops]
    split
    · exact ih hrest
    · refine List.pairwise_cons.2 ⟨fun x hx => covers_withoutPops ?_, ih hrest⟩
      obtain ⟨y, hy, -⟩ := mem_removePops hx
      exact hs y hy

theorem Covered.breaksTo (stop : Offset) (scope : Scope) (h : Covered l) :
    ∀ afterReturn, Covered (breaksTo stop scope afterReturn l) := by
  induction l with
  | nil => exact fun _ => h
  | cons s rest ih =>
    intro afterReturn
    obtain ⟨hs, hrest⟩ := List.pairwise_cons.1 h
    rw [Statement.breaksTo]
    split
    · split
      · exact ih hrest true
      · exact List.pairwise_cons.2 ⟨fun _ _ => trivial, ih hrest false⟩
    · refine List.pairwise_cons.2 ⟨fun x hx => ?_, ih hrest _⟩
      obtain ⟨y, hy⟩ : ∃ y, y ∈ rest := by
        cases rest with
        | nil => cases hx
        | cons y => exact ⟨y, List.mem_cons_self ..⟩
      exact hs y hy

theorem Covered.tidy {b : Block} {head : Head} {start stop : Offset} (h : Covered b.statements) :
    Covered (b.tidy head start stop).statements := by
  have trim {b : Block} (p : Token → Bool) (h : Covered b.statements) :
      Covered (b.trimLast p).statements := by
    unfold trimLast
    split
    · exact h.sublist (List.dropLast_sublist _)
    · exact h
  cases head with
  | ifHead | elseHead => exact h
  | whileHead => exact trim _ h
  | foreachHead => exact (trim _ (trim _ h)).removePops
  | switchHead => exact trim _ (h.breaksTo stop b.scope false)

theorem covers_finished_wrap {scope : Scope} {start stop : Offset} {head : Head}
    (h : ∀ o ∈ startsOf l, o ≤ stop) : ((Statement.wrap start head l stop).adopt scope).finished.Covers := by
  rw [finished_adopt_wrap]
  exact fun o ho => h o (startsOf_childrenOf scope start head stop l ho)

/-- A pass keeps it that statements cover what is inside them unless they stand last. -/
theorem Shape.covered_rewritten {b : Block} {r : Rewrite} (h : Shape b r) (laid : Laid b.statements)
    (covered : Covered b.statements) : Covered (b.rewritten r).statements := by
  have hfirst : r.first < r.after := by cases h <;> dsimp only <;> omega
  have hafter : r.after ≤ b.length := by cases h <;> dsimp only <;> omega
  have whole := covered
  rw [← b.take_slice_drop (Nat.le_of_lt hfirst)] at whole
  obtain ⟨front, run, across⟩ := List.pairwise_append.1 whole
  have behind := (List.pairwise_append.1 run).2.1
  rw [statements_rewritten]
  refine List.pairwise_append.2 ⟨front, ?_, fun s hs _ _ => ?_⟩
  · -- What starts before the statement behind a new one starts before its end.
    have covers {i k j : Nat} {stop : Offset} {head : Head} {x : Statement}
        (hx : b.statements[j]? = some x) (hstop : ∀ o < x.start, o ≤ stop) :
        ((Statement.wrap (b.startAt i) head (b.slice k j) stop).adopt b.scope).finished.Covers := by
      refine covers_finished_wrap fun o ho => hstop o ?_
      have hslice : b.slice 0 j = b.statements.take j := by simp [slice]
      rw [← List.take_append_drop j b.statements] at laid
      refine laid.lt_of_append ?_ (List.mem_of_getElem? (i := 0) (by rwa [List.getElem?_drop]))
      exact startsOf_mono (hslice ▸ b.slice_sublist_slice (Nat.zero_le k) (Nat.le_refl j)).subset ho
    have next {y : Statement} (hy : y ∈ b.statements.drop r.after) :
        ∃ x, b.statements[r.after]? = some x := by
      refine ⟨_, List.getElem?_eq_getElem ?_⟩
      have := List.length_pos_of_mem hy
      rw [List.length_drop] at this
      omega
    cases h with
    | escape => exact List.pairwise_cons.2 ⟨fun _ _ => trivial, behind⟩
    | single lt le ends =>
      refine List.pairwise_cons.2 ⟨fun y hy => ?_, behind⟩
      obtain ⟨x, hx⟩ := next hy
      exact covers hx (ends x hx)
    | @pair i split after condition stop lt lt' le ends =>
      refine List.pairwise_cons.2 ⟨fun y _ => ?_, List.pairwise_cons.2 ⟨fun y hy => ?_, behind⟩⟩
      · have hx : b.statements[split - 1]? = some _ := List.getElem?_eq_getElem (show _ < b.length by omega)
        exact covers hx (startAt_of_getElem? hx ▸ fun _ => Nat.le_of_lt)
      · obtain ⟨x, hx⟩ := next hy
        exact covers hx (ends x hx)
  · obtain ⟨y, hy⟩ : ∃ y, y ∈ b.slice r.first r.after := by
      refine List.exists_mem_of_length_pos ?_
      simp only [slice, List.length_take, List.length_drop, length] at hafter ⊢
      omega
    exact across s hs y (List.mem_append_left _ hy)

/-- The children of what a rewrite makes stood one after the other in the block. -/
theorem Shape.children {b : Block} {r : Rewrite} (h : Shape b r) {start stop : Offset}
    {scope inner : Scope} {head : Head} {l : List Statement}
    (hl : .composite start scope head stop inner l ∈ Statement.adoptAll b.scope r.made) :
    ∃ i j, l = Statement.adoptAll inner (b.slice i j) := by
  cases h with
  | escape => simp [Statement.adoptAll, adopt] at hl
  | single =>
    simp only [Statement.adoptAll, adopt_wrap, List.mem_singleton, composite.injEq] at hl
    obtain ⟨rfl, rfl, rfl, rfl, rfl, rfl⟩ := hl
    exact ⟨_, _, rfl⟩
  | pair =>
    simp only [Statement.adoptAll, adopt_wrap, List.mem_cons, List.not_mem_nil, or_false,
      composite.injEq] at hl
    rcases hl with ⟨rfl, rfl, rfl, rfl, rfl, rfl⟩ | ⟨rfl, rfl, rfl, rfl, rfl, rfl⟩
    · exact ⟨_, _, rfl⟩
    · exact ⟨_, _, rfl⟩

theorem stable_covered : Stable fun _ => Covered := ⟨fun scope h => h.adoptAll scope, fun h => h.removePops⟩

theorem carries_covered : Carries (fun b => Laid b.statements ∧ Covered b.statements) fun _ => Covered where
  rewritten hI hr := by
    obtain ⟨i, hi⟩ := rewriteAt_of_firstRewrite? hr
    exact ⟨hi.shape.laid_rewritten hI.1, hi.shape.covered_rewritten hI.1 hI.2⟩
  children hI hr hl := by
    obtain ⟨i, hi⟩ := rewriteAt_of_firstRewrite? hr
    obtain ⟨k, j, rfl⟩ := hi.shape.children hl
    exact ⟨(hI.1.sublist (slice_sublist ..)).adoptAll _, Covered.adoptAll _ (hI.2.sublist (slice_sublist ..))⟩
  tidied hI _ _ := hI.2.tidy

end Block

namespace Listing

open Statement Block

theorem laid_block {l : Listing} (sorted : fault? l = none) : Laid l.block.statements := by
  constructor
  · intro s hs o ho
    obtain ⟨e, -, rfl⟩ := List.mem_map.1 hs
    exact List.mem_singleton.1 ho ▸ Nat.le_refl _
  · refine List.pairwise_map.2 ((List.pairwise_map.1 ((fault?_eq_none_iff l).1 sorted)).imp ?_)
    intro e f hlt o ho
    exact List.mem_singleton.1 ho ▸ hlt

/-- **A composite statement with something behind it covers what is inside it.** -/
theorem throughout_covered (l : Listing) (sorted : fault? l = none) :
    Throughout Covered l.block.structured.value.statements := by
  have covered : Covered l.block.statements := by
    refine List.pairwise_of_forall_mem_list fun s hs _ _ => ?_
    obtain ⟨e, -, rfl⟩ := List.mem_map.1 hs
    trivial
  have := everyListOf_structureWithin stable_covered carries_covered (l.block.length + 1) l.block
    ⟨laid_block sorted, covered⟩ (everyListOf_block _ l)
  exact ⟨this.1.2, this.2⟩

/-- **All composite statements of a body cover what is inside them exactly if those do that stand last in
their lists.** -/
theorem covers_iff (l : Listing) (sorted : fault? l = none) :
    Throughout (fun m => ∀ s ∈ m, s.Covers) l.block.structured.value.statements ↔
      Throughout (fun m => ∀ s ∈ m.getLast?, s.Covers) l.block.structured.value.statements := by
  have covered := throughout_covered l sorted
  refine ⟨covered.imp₂ fun m _ h s hs => h s (List.mem_of_getLast? hs),
    covered.imp₂ fun m hm h s hs => ?_⟩
  rcases List.eq_nil_or_concat m with rfl | ⟨front, last, rfl⟩
  · cases hs
  rw [List.concat_eq_append] at hm h hs
  rcases List.mem_append.1 hs with hs | hs
  · exact (List.pairwise_append.1 hm).2.2 s hs last (List.mem_singleton.2 rfl)
  · exact List.mem_singleton.1 hs ▸ h last (by simp)

/-- A jump into a conditional. When the conditional is made, nothing behind its head is left, and the
jump goes to the end of the body. -/
def overreach : Listing :=
  [⟨0, none, .jumpIfNot (.expression "c") 15⟩, ⟨10, none, .jumpIfNot (.expression "d") 99⟩,
    ⟨20, none, .expression "X()"⟩]

theorem covers_iff_overreach :
    fault? overreach = none ∧
      (Throughout (fun m => ∀ s ∈ m, s.Covers) overreach.block.structured.value.statements ↔
        Throughout (fun m => ∀ s ∈ m.getLast?, s.Covers) overreach.block.structured.value.statements) :=
  ⟨by decide, covers_iff overreach (by decide)⟩

/-- The outer conditional ends at 15 and has a statement at 20 inside it. -/
theorem not_covers_overreach :
    fault? overreach = none ∧
      ¬Throughout (fun m => ∀ s ∈ m, s.Covers) overreach.block.structured.value.statements := by
  have tree : overreach.block.structured.value.statements =
      [.composite 0 [] (.ifHead (.expression "c")) 15 [⟨.ifBlock, 0, 15⟩]
        [.composite 10 [⟨.ifBlock, 0, 15⟩] (.ifHead (.expression "d")) 99
          [⟨.ifBlock, 10, 99⟩, ⟨.ifBlock, 0, 15⟩]
          [.plain 20 none [⟨.ifBlock, 10, 99⟩, ⟨.ifBlock, 0, 15⟩] (.expression "X()")]]] := rfl
  refine ⟨by decide, fun h => ?_⟩
  rw [tree] at h
  have := h.1 _ (List.mem_cons_self ..) 20 (by decide)
  exact absurd this (by decide)

end Listing

end FlowRecovery
