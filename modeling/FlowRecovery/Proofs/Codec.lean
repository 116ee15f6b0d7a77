import FlowRecovery.Format.Listing
import FlowRecovery.Format.Options
import FlowRecovery.Proofs.Spelling

/-!
# What is written is read back

Every construct of the listing format is a record with distinct fields, a text, a number or an array, and a
reader asks a record for its fields by name (`Json.fields?_record`). So a reader and a writer fit together
construct by construct: label tables (`Labels.ofJson?_toJson`), tokens (`Token.ofJsonWithin?_toJson`),
entries, listings and options.

A label table is the one construct that not every reader takes. Its keys are numbers written as texts; a
reader that has keys as texts only takes the empty table. A token is `legible` to a reader that takes all
label tables in it, and exactly the legible tokens are read back.

With what `Json.parse?` makes of a text that was written, tokens, entries, label tables and options are
read back from their compact texts (`Json.format_restored`).
-/

namespace FlowRecovery

namespace Json

/-! ### Fields -/

theorem namedMembers?_ofText (members : List (String × Json)) :
    namedMembers? (members.map fun p => (.ofText p.1, p.2)) = some members := by
  induction members with
  | nil => rfl
  | cons p members ih =>
    rw [namedMembers?] at ih ⊢
    rw [List.map_cons, List.mapM_cons, ih, Literal.text?_ofText]
    rfl

theorem field?_of_nodup {members : List (String × Json)} (h : (members.map Prod.fst).Nodup)
    (name : String) : field? members name = some (members.lookup name) := by
  induction members with
  | nil => rfl
  | cons p members ih =>
    obtain ⟨key, j⟩ := p
    rw [List.map_cons, List.nodup_cons] at h
    by_cases hkey : key = name
    · subst hkey
      have others : members.filter (fun p => p.1 == key) = [] := List.filter_eq_nil_iff.2 fun p hp heq =>
        h.1 (List.mem_map.2 ⟨p, hp, beq_iff_eq.1 heq⟩)
      rw [field?, List.filter_cons_of_pos (by simp), others, List.lookup_cons_self]
    · have skip : List.lookup name ((key, j) :: members) = List.lookup name members := by
        rw [List.lookup_cons, beq_false_of_ne (Ne.symm hkey)]
      rw [skip, ← ih h.2, field?, field?, List.filter_cons_of_neg (by simp [hkey])]

/-- The fields of a record, whatever their order is. -/
theorem fields?_record {members : List (String × Json)} (h : (members.map Prod.fst).Nodup)
    (names : List String) :
    (record members).fields? names = some (names.map fun name => members.lookup name) := by
  rw [record, fields?, namedMembers?_ofText, Option.bind_some]
  induction names with
  | nil => rfl
  | cons name names ih =>
    rw [List.mapM_cons, field?_of_nodup h, ih]
    rfl

@[simp] theorem depth_record_cons (name : String) (j : Json) (members : List (String × Json)) :
    (record ((name, j) :: members)).depth = max (j.depth + 1) (record members).depth := by
  simp only [record, depth, List.map_cons, depthOfMembers]
  omega

/-- An object with one member. -/
theorem Canonical.member {name : String} {j : Json} (h : j.Canonical) :
    (Json.record [(name, j)]).Canonical :=
  .record fun _ hp => List.mem_singleton.1 hp ▸ h

/-- A canonical member in front of canonical members. -/
theorem canonical_cons {name : String} {j : Json} {members : List (String × Json)} (h : j.Canonical)
    (others : ∀ p ∈ members, Canonical p.2) : ∀ p ∈ (name, j) :: members, Canonical p.2 :=
  List.forall_mem_cons.2 ⟨h, others⟩

theorem Canonical.ofFin {n : Nat} (hn : n ≤ Numeral.significandLimit) (i : Fin n) : (ofFin i).Canonical :=
  .ofNat (Nat.lt_of_lt_of_le i.isLt hn)

theorem Canonical.ofOption {n : Nat} (hn : n ≤ Numeral.significandLimit) :
    (i : Option (Fin n)) → (ofOption Json.ofFin i).Canonical
  | none => .null
  | some i => .ofFin hn i

theorem fin?_ofFin {n : Nat} (i : Fin n) : (ofFin i).fin? n = some i := by
  rw [fin?, ofFin, ofNat, nat?, Numeral.natural?_ofNat, Option.bind_some, dif_pos i.isLt]

theorem optional_of_ne_null {α : Type} (read : Json → Option α) {j : Json} (h : j ≠ null) :
    optional read (some j) = (read j).map some := by
  cases j <;> first | exact absurd rfl h | rfl

theorem optional_ofFin {n : Nat} (i : Option (Fin n)) :
    optional (fin? n) (some (ofOption ofFin i)) = some i := by
  cases i with
  | none => rfl
  | some i => exact congrArg (Option.map some) (fin?_ofFin i)

/-- An array is read if each of its items is. -/
theorem list?_array {α : Type} {toJson : α → Json} {read : Json → Option α} {readable : α → Bool}
    (h : ∀ a, read (toJson a) = if readable a then some a else none) (l : List α) :
    (array (l.map toJson)).list? read = if l.all readable then some l else none := by
  rw [list?, items?, Option.bind_some]
  induction l with
  | nil => rfl
  | cons a l ih =>
    rw [List.map_cons, List.mapM_cons, ih, h]
    cases ha : readable a <;> cases hl : l.all readable <;> simp [ha, hl]

theorem text?_ofText (s : String) : (ofText s).text? = some s := Literal.text?_ofText s

end Json

/-! ### Label tables -/

theorem Literal.escaped_of_isDigit {c : Char} (h : c.isDigit = true) : escaped c = [c] := by
  have letter : letter? c = none := by
    have ne {d : Char} : d.isDigit = false → c ≠ d := Json.ne_of_isDigit h
    simp [letter?, ne (d := '"') (by decide), ne (d := '\\') (by decide), ne (d := '\x08') (by decide),
      ne (d := '\x0c') (by decide), ne (d := '\n') (by decide), ne (d := '\r') (by decide),
      ne (d := '\t') (by decide)]
  have visible : ¬c.toNat < 0x20 := by
    simp only [Char.isDigit, Bool.and_eq_true, decide_eq_true_eq, ge_iff_le, UInt32.le_iff_toNat_le] at h
    have : 48 ≤ c.toNat := h.1
    omega
  rw [escaped, letter]
  exact if_neg visible

theorem Literal.offset?_key (o : Offset) : (Labels.key o).offset? = some o := by
  obtain ⟨c, ds, h, hc, hzero⟩ := Json.exists_toDigits o.val
  have digits : (Nat.toDigits 10 o.val).all Char.isDigit = true :=
    List.all_eq_true.2 fun _ hc => Nat.isDigit_of_mem_toDigits (by decide) (by decide) hc
  have value : Nat.ofDigitChars 10 (Nat.toDigits 10 o.val) 0 = o.val :=
    Nat.ofDigitChars_toDigits (by decide) (by decide)
  rw [h] at digits value
  rw [offset?, Labels.key, h]
  dsimp only
  rw [if_pos ⟨digits, (Decidable.em (c = '0')).symm.imp_right fun hc => (hzero hc).2⟩]
  simp [value, o.isLt]

namespace Labels

/-- Digits are written as they are. -/
theorem key_eq_ofText (o : Offset) : key o = .ofText o.text := by
  have plain (cs : List Char) (h : ∀ c ∈ cs, c.isDigit = true) : cs.flatMap Literal.escaped = cs := by
    induction cs with
    | nil => rfl
    | cons c cs ih =>
      rw [List.flatMap_cons, Literal.escaped_of_isDigit (h c (List.mem_cons_self ..)),
        ih fun x hx => h x (List.mem_cons_of_mem _ hx)]
      rfl
  rw [key, Literal.ofText, Offset.text, Nat.toList_repr,
    plain _ fun c hc => Nat.isDigit_of_mem_toDigits (by decide) (by decide) hc]

theorem toJson_eq_record (t : Labels) :
    t.toJson = .record (t.entries.map fun p => (p.1.text, .ofText p.2)) := by
  simp only [toJson, Json.record, List.map_map, Function.comp_def, key_eq_ofText]

theorem canonical_toJson (t : Labels) : t.toJson.Canonical := by
  rw [toJson_eq_record]
  refine .record fun p hp => ?_
  obtain ⟨q, -, rfl⟩ := List.mem_map.1 hp
  exact .ofText q.2

theorem depth_toJson (t : Labels) : t.toJson.depth = 1 := by
  rw [toJson_eq_record]
  induction t.entries with
  | nil => rfl
  | cons p l ih =>
    rw [List.map_cons, Json.depth_record_cons, ih]
    rfl

/-- Inserting named offsets that are new puts them at the end. -/
theorem assign_of_not_mem {o : Offset} {l : List (Offset × String)} (h : o ∉ l.map Prod.fst)
    (name : String) : assign o name l = l ++ [(o, name)] := by
  induction l with
  | nil => rfl
  | cons p l ih =>
    rw [List.map_cons, List.mem_cons, not_or] at h
    rw [assign, if_neg (Ne.symm h.1), ih h.2]
    rfl

theorem entries_insertAll {l : List (Offset × String)} :
    ∀ {t : Labels}, ((t.entries ++ l).map Prod.fst).Nodup → (t.insertAll l).entries = t.entries ++ l := by
  induction l with
  | nil => exact fun _ => (List.append_nil _).symm
  | cons p l ih =>
    intro t h
    have new : (t.insert p.1 p.2).entries = t.entries ++ [p] := by
      refine assign_of_not_mem (fun hmem => ?_) _
      rw [List.map_append] at h
      exact (List.nodup_append.1 h).2.2 _ hmem _ (List.mem_cons_self ..) rfl
    have := ih (t := t.insert p.1 p.2) (by rwa [new, List.append_assoc])
    rw [new, List.append_assoc] at this
    exact this

theorem ofList_entries (t : Labels) : ofList t.entries = t := by
  have h : (ofList t.entries).entries = t.entries := entries_insertAll t.nodup
  obtain ⟨entries, nodup⟩ := t
  cases hl : ofList entries with
  | mk entries' nodup' =>
    rw [hl] at h
    cases h
    rfl

/-- A reader of keys as they are written reads every label table; the other one the empty table only. -/
theorem ofJson?_toJson (keys : Keys) (t : Labels) :
    ofJson? keys t.toJson = if keys = .asWritten ∨ t.isEmpty then some t else none := by
  cases keys with
  | asWritten =>
    have entries (l : List (Offset × String)) :
        (l.map fun p => (key p.1, Json.ofText p.2)).mapM entry? = some l := by
      induction l with
      | nil => rfl
      | cons p l ih =>
        rw [List.map_cons, List.mapM_cons, ih, entry?, Literal.offset?_key, Option.bind_some,
          Json.text?_ofText]
        rfl
    rw [toJson, ofJson?, entries, Option.map_some, ofList_entries]
    rfl
  | asText =>
    obtain ⟨entries, nodup⟩ := t
    cases entries <;> rfl

end Labels

/-! ### Tokens -/

namespace Token

/-- Every label table in a token can be read by a reader that takes keys in a given way. -/
def legible (keys : Keys) : Token → Bool
  | labelTable labels => keys = .asWritten || labels.isEmpty
  | jumpIfNot condition _ => condition.legible keys
  | foreach collection _ => collection.legible keys
  | foreachWith collection iterator _ => collection.legible keys && iterator.legible keys
  | switch discriminant => discriminant.legible keys
  | retValue value | defaultParamValue value => value.legible keys
  | _ => true

theorem legible_asWritten (t : Token) : t.legible .asWritten = true := by
  induction t with
  | foreachWith collection iterator target hc hi => rw [legible, hc, hi]; rfl
  | _ => first | rfl | assumption

variable {keys : Keys} {depth : Nat}

theorem ofJsonWithin?_ofText (name : String) : ofJsonWithin? keys depth (.ofText name) = ofName? name := by
  rw [Json.ofText, ofJsonWithin?, Literal.text?_ofText, Option.bind_some]

theorem ofJsonWithin?_record (name : String) (j : Json) :
    ofJsonWithin? keys (depth + 1) (.record [(name, j)]) =
      ofMember? keys (ofJsonWithin? keys depth) name j := by
  rw [Json.record, List.map_cons, List.map_nil, ofJsonWithin?, Literal.text?_ofText, Option.bind_some]

theorem jumpIfNotOf?_record (read : Json → Option Token) (j : Json) (target : Offset) :
    jumpIfNotOf? read (.record [("condition", j), ("target", .ofFin target)]) =
      (read j).map fun condition => jumpIfNot condition target := by
  rw [jumpIfNotOf?, Json.fields?_record (by simp)]
  cases h : read j <;> simp [Json.required, List.lookup_cons, Json.fin?_ofFin, h]

theorem jumpOf?_record (target : Offset) :
    jumpOf? (.record [("target", .ofFin target)]) = some (jump target) := by
  rw [jumpOf?, Json.fields?_record (by simp)]
  simp [Json.required, Json.fin?_ofFin]

theorem foreachOf?_record (read : Json → Option Token) (j k : Json) (target : Offset) :
    foreachOf? read (.record [("collection", j), ("iterator", k), ("target", .ofFin target)]) =
      (read j).bind fun collection =>
        (Json.optional read (some k)).map fun iterator? => foreachOver collection iterator? target := by
  rw [foreachOf?, Json.fields?_record (by simp)]
  cases h : read j with
  | none => simp [Json.required, h]
  | some =>
    cases h' : Json.optional read (some k) <;>
      simp [Json.required, List.lookup_cons, Json.fin?_ofFin, h, h']

theorem switchOf?_record (read : Json → Option Token) (j : Json) :
    switchOf? read (.record [("discriminant", j)]) = (read j).map switch := by
  rw [switchOf?, Json.fields?_record (by simp)]
  simp [Json.required]

theorem undecodedOf?_record (message : String) (opcode : Option (Fin 256)) :
    undecodedOf? (.record [("message", .ofText message), ("opcode", .ofOption .ofFin opcode)]) =
      some (undecoded message opcode) := by
  have fields : (Json.record [("message", .ofText message), ("opcode", .ofOption .ofFin opcode)]).fields?
      ["message", "opcode"] = some [some (.ofText message), some (.ofOption .ofFin opcode)] :=
    Json.fields?_record (by simp) _
  rw [undecodedOf?, fields]
  simp [Json.required, Json.optional_ofFin, Json.text?_ofText]

theorem toJson_ne_null (t : Token) : t.toJson ≠ .null := by
  cases t <;> exact Json.noConfusion

/-- Writing a token and reading it back gives the token, if its label tables can be read. -/
theorem ofJsonWithin?_toJson (keys : Keys) : (t : Token) → ∀ depth, t.toJson.depth ≤ depth →
    ofJsonWithin? keys depth t.toJson = if t.legible keys then some t else none
  | iteratorNext, _, _ | iteratorPop, _, _ | defaultLabel, _, _ | nothing, _, _ => by
    rw [toJson, ofJsonWithin?_ofText]
    simp [ofName?, legible]
  | expression text, depth + 1, _ | caseLabel text, depth + 1, _ => by
    rw [toJson, ofJsonWithin?_record]
    simp [ofMember?, Json.text?_ofText, legible]
  | jump target, depth + 1, _ => by
    rw [toJson, ofJsonWithin?_record]
    simp [ofMember?, jumpOf?_record, legible]
  | undecoded message opcode, depth + 1, _ => by
    rw [toJson, ofJsonWithin?_record]
    simp [ofMember?, undecodedOf?_record, legible]
  | ret, depth + 1, _ => by
    rw [toJson, ofJsonWithin?_record]
    simp [ofMember?, Json.optional, retOf, legible]
  | labelTable labels, depth + 1, _ => by
    rw [toJson, ofJsonWithin?_record]
    cases keys <;> cases he : labels.isEmpty <;> simp [ofMember?, Labels.ofJson?_toJson, legible, he]
  | jumpIfNot condition target, depth + 1, h => by
    have shallow : condition.toJson.depth ≤ depth := by
      simp only [toJson, Json.depth_record_cons] at h
      omega
    have hc := ofJsonWithin?_toJson keys condition depth shallow
    rw [toJson, ofJsonWithin?_record]
    cases hb : condition.legible keys <;> simp [ofMember?, jumpIfNotOf?_record, hc, hb, legible]
  | foreach collection target, depth + 1, h => by
    have shallow : collection.toJson.depth ≤ depth := by
      simp only [toJson, Json.depth_record_cons] at h
      omega
    have hc := ofJsonWithin?_toJson keys collection depth shallow
    rw [toJson, ofJsonWithin?_record]
    cases hb : collection.legible keys <;>
      simp [ofMember?, foreachOf?_record, hc, hb, legible, Json.optional, foreachOver]
  | foreachWith collection iterator target, depth + 1, h => by
    have shallow : collection.toJson.depth ≤ depth ∧ iterator.toJson.depth ≤ depth := by
      simp only [toJson, Json.depth_record_cons] at h
      omega
    have hc := ofJsonWithin?_toJson keys collection depth shallow.1
    have hi := ofJsonWithin?_toJson keys iterator depth shallow.2
    have present := Json.optional_of_ne_null (ofJsonWithin? keys depth) iterator.toJson_ne_null
    rw [toJson, ofJsonWithin?_record]
    cases hb : collection.legible keys <;> cases hb' : iterator.legible keys <;>
      simp [ofMember?, foreachOf?_record, hc, hi, hb, hb', present, legible, foreachOver]
  | switch discriminant, depth + 1, h => by
    have shallow : discriminant.toJson.depth ≤ depth := by
      simp only [toJson, Json.depth_record_cons] at h
      omega
    have hc := ofJsonWithin?_toJson keys discriminant depth shallow
    rw [toJson, ofJsonWithin?_record]
    cases hb : discriminant.legible keys <;> simp [ofMember?, switchOf?_record, hc, hb, legible]
  | retValue value, depth + 1, h => by
    have shallow : value.toJson.depth ≤ depth := by
      simp only [toJson, Json.depth_record_cons] at h
      omega
    have hc := ofJsonWithin?_toJson keys value depth shallow
    have present := Json.optional_of_ne_null (ofJsonWithin? keys depth) value.toJson_ne_null
    rw [toJson, ofJsonWithin?_record]
    cases hb : value.legible keys <;> simp [ofMember?, present, hc, hb, legible, retOf]
  | defaultParamValue value, depth + 1, h => by
    have shallow : value.toJson.depth ≤ depth := by
      simp only [toJson, Json.depth_record_cons] at h
      omega
    have hc := ofJsonWithin?_toJson keys value depth shallow
    rw [toJson, ofJsonWithin?_record]
    cases hb : value.legible keys <;> simp [ofMember?, hc, hb, legible]

theorem ofJson?_toJson (keys : Keys) (t : Token) :
    ofJson? keys t.toJson = if t.legible keys then some t else none :=
  ofJsonWithin?_toJson keys t _ (Nat.le_refl _)

theorem canonical_toJson : (t : Token) → t.toJson.Canonical
  | iteratorNext | iteratorPop | defaultLabel | nothing => .ofText _
  | expression _ | caseLabel _ => .member (.ofText _)
  | ret => .member .null
  | retValue value | defaultParamValue value => .member value.canonical_toJson
  | switch discriminant => .member (.member discriminant.canonical_toJson)
  | labelTable labels => .member labels.canonical_toJson
  | jump target => .member (.member (.ofFin (by decide) target))
  | jumpIfNot condition target => by
    rw [toJson]
    exact .member (.record (Json.canonical_cons condition.canonical_toJson
      (Json.canonical_cons (.ofFin (by decide) target) (List.forall_mem_nil _))))
  | foreach collection target => by
    rw [toJson]
    exact .member (.record (Json.canonical_cons collection.canonical_toJson (Json.canonical_cons .null
      (Json.canonical_cons (.ofFin (by decide) target) (List.forall_mem_nil _)))))
  | foreachWith collection iterator target => by
    rw [toJson]
    exact .member (.record (Json.canonical_cons collection.canonical_toJson
      (Json.canonical_cons iterator.canonical_toJson
        (Json.canonical_cons (.ofFin (by decide) target) (List.forall_mem_nil _)))))
  | undecoded message opcode => by
    rw [toJson]
    exact .member (.record (Json.canonical_cons (.ofText message)
      (Json.canonical_cons (.ofOption (by decide) opcode) (List.forall_mem_nil _))))

end Token

/-! ### Listings -/

namespace Entry

theorem ofJson?_toJson (keys : Keys) (e : Entry) :
    ofJson? keys e.toJson = if e.token.legible keys then some e else none := by
  obtain ⟨offset, stop?, token⟩ := e
  have fields : (toJson ⟨offset, stop?, token⟩).fields? ["offset", "end_offset", "token"] =
      some [some (.ofFin offset), stop?.map Json.ofFin, some token.toJson] := by
    cases stop? with
    | none => exact Json.fields?_record (by simp) _
    | some stop => exact Json.fields?_record (by simp) _
  have stop : Json.optional (Json.fin? 4294967296) (stop?.map Json.ofFin) = some stop? := by
    cases stop? with
    | none => rfl
    | some stop => exact Json.optional_ofFin (some stop)
  rw [ofJson?, fields]
  cases h : token.legible keys <;>
    simp [Json.required, Json.fin?_ofFin, stop, Token.ofJson?_toJson, h]

theorem canonical_toJson (e : Entry) : e.toJson.Canonical := by
  obtain ⟨offset, stop?, token⟩ := e
  have last : ∀ p ∈ [("token", token.toJson)], Json.Canonical p.2 :=
    Json.canonical_cons token.canonical_toJson (List.forall_mem_nil _)
  have first : (Json.ofFin offset).Canonical := .ofFin (by decide) offset
  cases stop? with
  | none => exact .record (Json.canonical_cons first last)
  | some stop => exact .record (Json.canonical_cons first (Json.canonical_cons (.ofFin (by decide) stop) last))

end Entry

namespace Listing

/-- Every label table of a listing can be read by a reader that takes keys in a given way. -/
def legible (keys : Keys) (l : Listing) : Bool := l.all fun e => e.token.legible keys

theorem ofJson?_toJson (keys : Keys) (l : Listing) :
    ofJson? keys (toJson l) = if legible keys l then some l else none :=
  Json.list?_array (Entry.ofJson?_toJson keys) l

theorem canonical_toJson (l : Listing) : (toJson l).Canonical :=
  .array (by simp [Entry.canonical_toJson])

end Listing

/-! ### Options -/

namespace Options

theorem count?_ofFin (n : Count) : count? (.ofFin n) = some n := Json.fin?_ofFin n

theorem ofJson?_toJson (o : Options) : ofJson? o.toJson = some o := by
  have fields : o.toJson.fields? ["create_control_statements", "show_start_offsets", "indent_width",
      "max_passes", "optional_params"] = some [some (.bool o.structured), some (.bool o.showOffsets),
      some (.ofFin o.indentWidth), some (.ofOption .ofFin o.maxPasses?), some (.ofFin o.optionalParams)] :=
    Json.fields?_record (by simp) _
  have passes : Json.optional count? (some (.ofOption .ofFin o.maxPasses?)) = some o.maxPasses? :=
    Json.optional_ofFin o.maxPasses?
  rw [ofJson?, fields]
  simp [Json.defaulted, Json.bool?, count?_ofFin, passes]

theorem canonical_toJson (o : Options) : o.toJson.Canonical := by
  rw [toJson]
  exact .record (Json.canonical_cons (.bool _) (Json.canonical_cons (.bool _)
    (Json.canonical_cons (.ofFin (Nat.le_refl _) _) (Json.canonical_cons (.ofOption (Nat.le_refl _) _)
      (Json.canonical_cons (.ofFin (Nat.le_refl _) _) (List.forall_mem_nil _))))))

theorem depth_toJson (o : Options) : o.toJson.depth = 1 := by
  have passes : (Json.ofOption Json.ofFin o.maxPasses?).depth = 0 := by cases o.maxPasses? <;> rfl
  simp only [toJson, Json.depth_record_cons, passes]
  rfl

end Options

/-! ### Texts -/

namespace Json

/-- The compact text of a value is read as that value, and what is read is written as the same text. -/
def Restored {α : Type} (toJson : α → Json) (ofJson? : Json → Option α) (a : α) : Prop :=
  (parse? (toJson a).compact).bind ofJson? = some a ∧
    ((parse? (toJson a).compact).bind ofJson?).map (fun b => (toJson b).compact) = some (toJson a).compact

theorem Restored.of_canonical {α : Type} {toJson : α → Json} {ofJson? : Json → Option α} {a : α}
    (canonical : (toJson a).Canonical) (shallow : (toJson a).depth ≤ nestingLimit)
    (read : ofJson? (toJson a) = some a) : Restored toJson ofJson? a := by
  have back : (parse? (toJson a).compact).bind ofJson? = some a := by
    rw [canonical.parse?_compact shallow, Option.bind_some, read]
  exact ⟨back, by rw [back, Option.map_some]⟩

/-- **Tokens, entries, label tables and options are read back from their texts,** unless they are nested
too deep. -/
theorem format_restored :
    (∀ t : Token, t.toJson.depth ≤ nestingLimit → Restored Token.toJson (Token.ofJson? .asWritten) t) ∧
      (∀ e : Entry, e.toJson.depth ≤ nestingLimit → Restored Entry.toJson (Entry.ofJson? .asWritten) e) ∧
      (∀ t : Labels, Restored Labels.toJson (Labels.ofJson? .asWritten) t) ∧
      ∀ o : Options, Restored Options.toJson Options.ofJson? o := by
  refine ⟨fun t shallow => ?_, fun e shallow => ?_, fun t => ?_, fun o => ?_⟩
  · refine .of_canonical t.canonical_toJson shallow ?_
    rw [Token.ofJson?_toJson, Token.legible_asWritten, if_pos rfl]
  · refine .of_canonical e.canonical_toJson shallow ?_
    rw [Entry.ofJson?_toJson, Token.legible_asWritten, if_pos rfl]
  · refine .of_canonical t.canonical_toJson (t.depth_toJson ▸ by decide) ?_
    rw [Labels.ofJson?_toJson, if_pos (.inl rfl)]
  · exact .of_canonical o.canonical_toJson (o.depth_toJson ▸ by decide) o.ofJson?_toJson

/-- Tokens within tokens, texts with quotes and control characters, a label table out of order. -/
def nestedToken : Token :=
  .foreachWith (.jumpIfNot (.retValue (.undecoded "bad \"opcode\"\n\x01" (some 255))) 4294967295)
    (.defaultParamValue (.labelTable (.ofList [(20, "Rest"), (7, "Läuft\t"), (20, "Busy")]))) 30

theorem format_restored_nestedToken :
    nestedToken.toJson.depth ≤ nestingLimit ∧
      Restored Token.toJson (Token.ofJson? .asWritten) nestedToken ∧
      (Entry.toJson ⟨5, some 9, nestedToken⟩).depth ≤ nestingLimit ∧
      Restored Entry.toJson (Entry.ofJson? .asWritten) ⟨5, some 9, nestedToken⟩ :=
  ⟨by decide, format_restored.1 nestedToken (by decide), by decide, format_restored.2.1 _ (by decide)⟩

end Json

end FlowRecovery
