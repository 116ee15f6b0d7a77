import FlowRecovery.Proofs.Escapes

/-!
# The lists of a tree

Every composite statement of a structured block has a list of children. What holds of each of these
lists (`Statement.EveryList`) is settled when the children are structured and tidied. What happens to
the list later is little: it is handed scopes, and the ends of iterators are removed from it when an
iteration around it is tidied (`Statement.Stable`). Many such properties are about each statement of the
list and what stands behind it (`EachBehind`).

So a property of all lists takes a property of blocks that the passes keep and that goes over to the
children of what they make, and from which the tidied children get the property of lists
(`Block.Carries`). `Block.everyListOf_structureWithin` is the conclusion, for passes under any limit.
-/

namespace FlowRecovery

/-- A place in two lists that are put together is a place in one of them. -/
theorem of_append_cons_eq {α : Type} {s : α} {l m front behind : List α}
    (h : front ++ s :: behind = l ++ m) :
    (∃ rest, l = front ++ s :: rest ∧ behind = rest ++ m) ∨
      ∃ between, front = l ++ between ∧ m = between ++ s :: behind := by
  rcases List.append_eq_append_iff.1 h with ⟨rest, rfl, hm⟩ | hbetween
  · cases rest with
    | nil => exact .inr ⟨[], by simp, hm.symm⟩
    | cons x rest =>
      cases hm
      exact .inl ⟨rest, rfl, rfl⟩
  · exact .inr hbetween

/-- `R` relates every statement of a list to the statements behind it. -/
def EachBehind (R : Statement → List Statement → Prop) (l : List Statement) : Prop :=
  ∀ s rest, s :: rest <:+ l → R s rest

namespace EachBehind

variable {R R' : Statement → List Statement → Prop} {s : Statement} {l : List Statement}

theorem nil : EachBehind R [] := by
  intro s rest h
  cases List.suffix_nil.1 h

theorem cons_iff : EachBehind R (s :: l) ↔ R s l ∧ EachBehind R l := by
  constructor
  · intro h
    exact ⟨h s l (List.suffix_refl _), fun m rest hm => h m rest (hm.trans (List.suffix_cons ..))⟩
  · rintro ⟨hs, hl⟩ m rest hm
    rcases List.suffix_cons_iff.1 hm with heq | hm
    · cases heq
      exact hs
    · exact hl m rest hm

theorem mono (hR : ∀ s ∈ l, ∀ rest, R s rest → R' s rest) (h : EachBehind R l) : EachBehind R' l :=
  fun s rest hs => hR s (hs.subset (List.mem_cons_self ..)) rest (h s rest hs)

/-- What stands behind a statement once the last one is gone. -/
theorem dropLast (h : EachBehind (fun s rest => R s rest.dropLast) l) : EachBehind R l.dropLast := by
  rcases List.eq_nil_or_concat l with rfl | ⟨l, last, rfl⟩
  · exact nil
  · intro s rest hs
    rw [List.concat_eq_append] at hs h
    rw [List.dropLast_concat] at hs
    obtain ⟨front, rfl⟩ := hs
    have hlast : R s (rest ++ [last]).dropLast := h s (rest ++ [last]) ⟨front, by simp⟩
    rwa [List.dropLast_concat] at hlast

end EachBehind

namespace Statement

mutual

/-- Every list inside a statement, at every depth, satisfies `P`, given the offset that leads to its
end. -/
def EveryList (P : (Offset → Bool) → List Statement → Prop) : Statement → Prop
  | composite _ _ _ stop _ children => P (stop == ·) children ∧ EveryListOf P children
  | _ => True

/-- Every list inside the statements of a list satisfies `P`. -/
def EveryListOf (P : (Offset → Bool) → List Statement → Prop) : List Statement → Prop
  | [] => True
  | s :: rest => EveryList P s ∧ EveryListOf P rest

end

/-- A list and every list inside its statements satisfies `P`. -/
def Throughout (P : List Statement → Prop) (l : List Statement) : Prop := P l ∧ EveryListOf (fun _ => P) l

/-- A property of lists that is not lost when the composite statement over a list is put somewhere else
or when ends of iterators are removed. -/
structure Stable (P : (Offset → Bool) → List Statement → Prop) : Prop where
  /-- Scopes do not matter. -/
  adoptAll {ends : Offset → Bool} {l : List Statement} (scope : Scope) :
    P ends l → P ends (adoptAll scope l)
  /-- Ends of iterators before returns do not matter. -/
  removePops {ends : Offset → Bool} {l : List Statement} : P ends l → P ends (removePops l)

variable {P : (Offset → Bool) → List Statement → Prop} {s : Statement} {l m : List Statement}

theorem everyListOf_iff : EveryListOf P l ↔ ∀ s ∈ l, s.EveryList P := by
  induction l with
  | nil => simp [EveryListOf]
  | cons s rest ih => simp [EveryListOf, ih]

theorem EveryListOf.mono (h : EveryListOf P m) (hl : ∀ s ∈ l, s ∈ m) : EveryListOf P l :=
  everyListOf_iff.2 fun s hs => everyListOf_iff.1 h s (hl s hs)

theorem everyList_of_token? {t : Token} (h : s.token? = some t) : s.EveryList P := by
  cases s with
  | plain => trivial
  | escape | composite => cases h

section

variable {P Q R : (Offset → Bool) → List Statement → Prop}

mutual

theorem EveryList.imp₂ (h : ∀ ends l, P ends l → Q ends l → R ends l) :
    (s : Statement) → s.EveryList P → s.EveryList Q → s.EveryList R
  | plain .., _, _ => trivial
  | escape .., _, _ => trivial
  | composite _ _ _ _ _ children, hP, hQ =>
    ⟨h _ _ hP.1 hQ.1, EveryListOf.imp₂ h children hP.2 hQ.2⟩

theorem EveryListOf.imp₂ (h : ∀ ends l, P ends l → Q ends l → R ends l) :
    (l : List Statement) → EveryListOf P l → EveryListOf Q l → EveryListOf R l
  | [], _, _ => trivial
  | s :: rest, hP, hQ =>
    ⟨EveryList.imp₂ h s hP.1 hQ.1, EveryListOf.imp₂ h rest hP.2 hQ.2⟩

end

end

theorem Throughout.imp₂ {P Q R : List Statement → Prop} (h : ∀ l, P l → Q l → R l)
    (hP : Throughout P l) (hQ : Throughout Q l) : Throughout R l :=
  ⟨h l hP.1 hQ.1, EveryListOf.imp₂ (fun _ => h) l hP.2 hQ.2⟩

mutual

theorem Stable.everyList_adopt (stable : Stable P) (scope : Scope) :
    (s : Statement) → s.EveryList P → (s.adopt scope).EveryList P
  | plain .., _ => by rw [adopt]; trivial
  | escape .., _ => by rw [adopt]; trivial
  | composite start _ head stop _ children, h => by
    rw [adopt]
    exact ⟨stable.adoptAll _ h.1, stable.everyListOf_adoptAll _ children h.2⟩

theorem Stable.everyListOf_adoptAll (stable : Stable P) (scope : Scope) :
    (l : List Statement) → EveryListOf P l → EveryListOf P (Statement.adoptAll scope l)
  | [], h => h
  | s :: rest, h => by
    rw [Statement.adoptAll]
    exact ⟨stable.everyList_adopt scope s h.1, stable.everyListOf_adoptAll scope rest h.2⟩

end

mutual

theorem Stable.everyList_withoutPops (stable : Stable P) :
    (s : Statement) → s.EveryList P → s.withoutPops.EveryList P
  | plain .., h => h
  | escape .., h => h
  | composite _ _ _ _ _ children, h =>
    ⟨stable.removePops h.1, stable.everyListOf_removePops children h.2⟩

theorem Stable.everyListOf_removePops (stable : Stable P) :
    (l : List Statement) → EveryListOf P l → EveryListOf P (Statement.removePops l)
  | [], h => h
  | s :: rest, h => by
    rw [Statement.removePops]
    split
    · exact stable.everyListOf_removePops rest h.2
    · exact ⟨stable.everyList_withoutPops s h.1, stable.everyListOf_removePops rest h.2⟩

end

end Statement

namespace Block

open Statement

/-- A property of blocks that passes keep, that goes over to the children of what they make, and that
gives these children `P` when they are structured and tidied. -/
structure Carries (I : Block → Prop) (P : (Offset → Bool) → List Statement → Prop) : Prop where
  /-- A pass keeps it. -/
  rewritten {b : Block} {r : Rewrite} : I b → b.firstRewrite? = some r → I (b.rewritten r)
  /-- It goes over to children. -/
  children {b : Block} {r : Rewrite} {start stop : Offset} {scope inner : Scope} {head : Head}
    {l : List Statement} : I b → b.firstRewrite? = some r →
      .composite start scope head stop inner l ∈ Statement.adoptAll b.scope r.made → I ⟨inner, l⟩
  /-- It gives `P` to children that are done. -/
  tidied {b : Block} {start stop : Offset} {outer : Scope} {head : Head} : I b →
    b.scope = ⟨head.kind, start, stop⟩ :: outer → b.firstRewrite? = none →
      P (stop == ·) (b.tidy head start stop).statements

variable {I : Block → Prop} {P : (Offset → Bool) → List Statement → Prop}

theorem everyListOf_tidy (stable : Stable P) {b : Block} {head : Head} {start stop : Offset}
    (h : EveryListOf P b.statements) : EveryListOf P (b.tidy head start stop).statements := by
  cases head with
  | ifHead | elseHead => exact h
  | whileHead => exact h.mono fun _ => mem_trimLast
  | foreachHead =>
    exact stable.everyListOf_removePops _ (h.mono fun _ hs => mem_trimLast (mem_trimLast hs))
  | switchHead =>
    refine everyListOf_iff.2 fun s hs => ?_
    rcases mem_breaksTo (mem_trimLast hs) with hs | ⟨start, rfl⟩
    · exact everyListOf_iff.1 h s hs
    · trivial

/-- A pass keeps it that the lists inside the statements of a block satisfy `P`. -/
theorem everyListOf_rewritten (stable : Stable P) (carries : Carries I P) {b : Block} {r : Rewrite}
    (hr : b.firstRewrite? = some r)
    (inner : ∀ c : Block, c.length < b.length → I c ∧ EveryListOf P c.statements →
      I c.recovered ∧ EveryListOf P c.recovered.statements)
    (hI : I b) (hP : EveryListOf P b.statements) : EveryListOf P (b.rewritten r).statements := by
  obtain ⟨i, hi⟩ := rewriteAt_of_firstRewrite? hr
  refine everyListOf_iff.2 fun s hs => ?_
  simp only [Block.rewritten, List.mem_append] at hs
  rcases hs with (hs | hs) | hs
  · exact everyListOf_iff.1 hP s (List.mem_of_mem_take hs)
  · obtain ⟨m, hm, rfl⟩ := List.mem_map.1 hs
    cases m with
    | plain | escape => trivial
    | composite start scope head stop frames children =>
      have hchildren := carries.children hI hr hm
      obtain ⟨rfl, l, hlen, hl, rfl⟩ := hi.mem_of_wrap hm
      obtain ⟨hdone, hlists⟩ := inner _ (by simpa [length] using hlen)
        ⟨hchildren, stable.everyListOf_adoptAll _ l (hP.mono hl)⟩
      exact ⟨carries.tidied hdone (scope_recovered _) (firstRewrite?_recovered _),
        everyListOf_tidy stable hlists⟩
  · exact everyListOf_iff.1 hP s (List.mem_of_mem_drop hs)

/-- What holds of every list inside the statements of a structured block, whatever the limit. -/
theorem everyListOf_structureWithin (stable : Stable P) (carries : Carries I P) (limit : Nat)
    (b : Block) (hI : I b) (hP : EveryListOf P b.statements) :
    I (b.structureWithin limit).value ∧ EveryListOf P (b.structureWithin limit).value.statements := by
  refine value_structureWithin_induction
    (R := fun b c => I b ∧ EveryListOf P b.statements → I c ∧ EveryListOf P c.statements) (fun _ => id)
    (fun h h' hb => h' (h hb)) (fun b r hr inner hb => ?_) limit b ⟨hI, hP⟩
  exact ⟨carries.rewritten hb.1 hr, everyListOf_rewritten stable carries hr inner hb.1 hb.2⟩

end Block

namespace Listing

/-- There is no list inside an instruction. -/
theorem everyListOf_block (P : (Offset → Bool) → List Statement → Prop) (l : Listing) :
    Statement.EveryListOf P l.block.statements := by
  refine Statement.everyListOf_iff.2 fun s hs => ?_
  obtain ⟨e, -, rfl⟩ := List.mem_map.1 hs
  exact Statement.everyList_of_token? rfl

end Listing

end FlowRecovery
