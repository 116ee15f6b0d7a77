import FlowRecovery.Offset

/-!
# Label tables

A label table names offsets. It keeps the order in which its offsets were first inserted; naming an
offset again keeps the offset's place and changes the name. The invariant that no offset occurs
twice is part of the type.

* `Labels.label?_insert` — what a lookup finds after an insertion.
* `Labels.offsets_insert_of_mem` and `Labels.offsets_insert_of_not_mem` — where an insertion puts
  its offset.
-/

namespace FlowRecovery

/-- Gives `o` the name `name` in a list of named offsets: in the place that `o` has, or at the end. -/
def assign (o : Offset) (name : String) : List (Offset × String) → List (Offset × String)
  | [] => [(o, name)]
  | (k, n) :: rest => if k = o then (k, name) :: rest else (k, n) :: assign o name rest

/-- The name of the offset `o` in a list of named offsets. -/
def nameIn? (o : Offset) : List (Offset × String) → Option String
  | [] => none
  | (k, n) :: rest => if k = o then some n else nameIn? o rest

theorem map_fst_assign_of_mem {o : Offset} {l : List (Offset × String)} (h : o ∈ l.map Prod.fst)
    (name : String) : (assign o name l).map Prod.fst = l.map Prod.fst := by
  induction l with
  | nil => cases h
  | cons p rest ih =>
    obtain ⟨k, n⟩ := p
    by_cases hk : k = o
    · simp [assign, hk]
    · rcases List.mem_cons.1 h with rfl | h
      · exact absurd rfl hk
      · simp [assign, hk, ih h]

theorem map_fst_assign_of_not_mem {o : Offset} {l : List (Offset × String)}
    (h : o ∉ l.map Prod.fst) (name : String) :
    (assign o name l).map Prod.fst = l.map Prod.fst ++ [o] := by
  induction l with
  | nil => rfl
  | cons p rest ih =>
    obtain ⟨k, n⟩ := p
    have hk : ¬ k = o := fun e => h (e ▸ List.mem_cons_self)
    have hr : o ∉ rest.map Prod.fst := fun m => h (List.mem_cons_of_mem _ m)
    simp [assign, hk, ih hr]

theorem nodup_map_fst_assign {l : List (Offset × String)} (h : (l.map Prod.fst).Nodup) (o : Offset)
    (name : String) : ((assign o name l).map Prod.fst).Nodup := by
  by_cases hm : o ∈ l.map Prod.fst
  · rwa [map_fst_assign_of_mem hm]
  · rw [map_fst_assign_of_not_mem hm]
    refine List.nodup_append.2 ⟨h, by simp, ?_⟩
    intro a ha b hb e
    rw [List.mem_singleton] at hb
    exact hm (hb ▸ e ▸ ha)

theorem nameIn?_assign (o p : Offset) (name : String) (l : List (Offset × String)) :
    nameIn? p (assign o name l) = if o = p then some name else nameIn? p l := by
  induction l with
  | nil => rfl
  | cons q rest ih =>
    obtain ⟨k, n⟩ := q
    by_cases hk : k = o
    · subst hk
      by_cases hp : k = p <;> simp [assign, nameIn?, hp]
    · by_cases hp : k = p
      · subst hp
        simp [assign, nameIn?, hk, Ne.symm hk]
      · simp [assign, nameIn?, hk, hp, ih]

theorem mem_of_nameIn? {o : Offset} {name : String} {l : List (Offset × String)}
    (h : nameIn? o l = some name) : (o, name) ∈ l := by
  induction l with
  | nil => cases h
  | cons entry rest ih =>
    obtain ⟨k, n⟩ := entry
    rw [nameIn?] at h
    split at h
    · next hk =>
      cases h
      exact hk ▸ List.mem_cons_self
    · exact List.mem_cons_of_mem _ (ih h)

/-- The offsets that carry a label, each with its name, in the order of first insertion. -/
structure Labels where
  /-- The named offsets. -/
  entries : List (Offset × String)
  /-- No offset is named twice. -/
  nodup : (entries.map Prod.fst).Nodup
  deriving DecidableEq

namespace Labels

/-- The table without labels. -/
def empty : Labels := ⟨[], List.nodup_nil⟩

instance : EmptyCollection Labels := ⟨empty⟩

instance : Inhabited Labels := ⟨empty⟩

/-- The named offsets, in order. -/
def offsets (t : Labels) : List Offset := t.entries.map Prod.fst

/-- Names the offset `o`. A table that names it already keeps its place and takes the new name. -/
def insert (t : Labels) (o : Offset) (name : String) : Labels :=
  ⟨assign o name t.entries, nodup_map_fst_assign t.nodup o name⟩

/-- The name of the offset `o`. -/
def label? (t : Labels) (o : Offset) : Option String := nameIn? o t.entries

/-- The number of named offsets. -/
def length (t : Labels) : Nat := t.entries.length

/-- No offset is named. -/
def isEmpty (t : Labels) : Bool := t.entries.isEmpty

/-- Inserts named offsets one after the other. -/
def insertAll (t : Labels) (l : List (Offset × String)) : Labels :=
  l.foldl (fun t p => t.insert p.1 p.2) t

/-- The table that named offsets give when they are inserted in order. -/
def ofList (l : List (Offset × String)) : Labels := empty.insertAll l

/-- Takes over the names of `u`: where both tables name an offset, `u` wins. -/
def merge (t u : Labels) : Labels := t.insertAll u.entries

theorem offsets_insert_of_mem {t : Labels} {o : Offset} (h : o ∈ t.offsets) (name : String) :
    (t.insert o name).offsets = t.offsets :=
  map_fst_assign_of_mem h name

theorem offsets_insert_of_not_mem {t : Labels} {o : Offset} (h : o ∉ t.offsets) (name : String) :
    (t.insert o name).offsets = t.offsets ++ [o] :=
  map_fst_assign_of_not_mem h name

theorem label?_insert (t : Labels) (o p : Offset) (name : String) :
    (t.insert o name).label? p = if o = p then some name else t.label? p :=
  nameIn?_assign o p name t.entries

end Labels

end FlowRecovery
