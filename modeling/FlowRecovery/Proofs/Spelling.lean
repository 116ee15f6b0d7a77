import FlowRecovery.Json.Reader
import FlowRecovery.Json.Writer

/-!
# Spellings

A document can be spelled in many ways: with or without blanks between its parts, on one line or on many.
`Json.Spells` is the grammar of the spellings that writers make, where literals and numerals have one form
each. Whatever the spelling of a document is, it is read as the document, with what is behind it left over
(`Json.value?_of_spells`); so a text that spells a document is read as it, unless it is nested too deep
(`Json.parse?_of_spelledBy`).

Both ways in which documents are written are spellings (`Json.Canonical.spelledBy_compact`,
`Json.Canonical.spelledBy_pretty`).
-/

namespace FlowRecovery

namespace Json

/-! ### The grammar -/

/-- Only blanks. -/
def Blanks (ws : List Char) : Prop := ∀ c ∈ ws, isBlank c = true

/-- A numeral does not go on with these characters. -/
def EndsNumeral (rest : List Char) : Prop :=
  ∀ c ∈ rest.head?, c.isDigit = false ∧ c ≠ '.' ∧ c ≠ 'e' ∧ c ≠ 'E'

/-- The first characters spell the key `key` of a member; `rest` is what is behind the colon. -/
inductive SpellsKey (key : String) : List Char → List Char → Prop where
  /-- There may be blanks on both sides of the literal. -/
  | mk {ws ws' rest : List Char} (before : Blanks ws) (behind : Blanks ws') :
      SpellsKey key (ws ++ '"' :: ((Literal.ofText key).written ++ '"' :: (ws' ++ ':' :: rest))) rest

mutual

/-- The first characters spell a document; the last argument is what is behind it. -/
inductive Spells : List Char → Json → List Char → Prop where
  /-- A blank may come first. -/
  | blank {c : Char} {cs rest : List Char} {j : Json} (blank : isBlank c = true)
      (spells : Spells cs j rest) : Spells (c :: cs) j rest
  /-- The word for nothing. -/
  | null {rest : List Char} : Spells ('n' :: 'u' :: 'l' :: 'l' :: rest) null rest
  /-- The word for what is true. -/
  | yes {rest : List Char} : Spells ('t' :: 'r' :: 'u' :: 'e' :: rest) (bool true) rest
  /-- The word for what is false. -/
  | no {rest : List Char} : Spells ('f' :: 'a' :: 'l' :: 's' :: 'e' :: rest) (bool false) rest
  /-- A natural number in decimal. -/
  | number {n : Nat} {rest : List Char} (ends : EndsNumeral rest) :
      Spells (Nat.toDigits 10 n ++ rest) (ofNat n) rest
  /-- A text between quotes. -/
  | text {s : String} {rest : List Char} :
      Spells ('"' :: ((Literal.ofText s).written ++ '"' :: rest)) (ofText s) rest
  /-- An array without items. -/
  | noItems {ws rest : List Char} (blanks : Blanks ws) :
      Spells ('[' :: (ws ++ ']' :: rest)) (array []) rest
  /-- An array. -/
  | items {cs rest : List Char} {items : List Json} (spells : SpellsItems cs items rest) :
      Spells ('[' :: cs) (array items) rest
  /-- An object without members. -/
  | noMembers {ws rest : List Char} (blanks : Blanks ws) :
      Spells ('\x7b' :: (ws ++ '\x7d' :: rest)) (record []) rest
  /-- An object. -/
  | members {cs rest : List Char} {members : List (String × Json)}
      (spells : SpellsMembers cs members rest) : Spells ('\x7b' :: cs) (record members) rest

/-- The first characters spell the items of an array, up to the closing bracket. -/
inductive SpellsItems : List Char → List Json → List Char → Prop where
  /-- The last item. -/
  | last {cs ws rest : List Char} {j : Json} (spells : Spells cs j (ws ++ ']' :: rest))
      (blanks : Blanks ws) : SpellsItems cs [j] rest
  /-- An item with others behind it. -/
  | next {cs ds ws rest : List Char} {j : Json} {items : List Json}
      (spells : Spells cs j (ws ++ ',' :: ds)) (blanks : Blanks ws)
      (others : SpellsItems ds items rest) : SpellsItems cs (j :: items) rest

/-- The first characters spell the members of an object, up to the closing brace. -/
inductive SpellsMembers : List Char → List (String × Json) → List Char → Prop where
  /-- The last member. -/
  | last {cs ds ws rest : List Char} {key : String} {j : Json} (named : SpellsKey key cs ds)
      (spells : Spells ds j (ws ++ '\x7d' :: rest)) (blanks : Blanks ws) :
      SpellsMembers cs [(key, j)] rest
  /-- A member with others behind it. -/
  | next {cs ds es ws rest : List Char} {key : String} {j : Json} {members : List (String × Json)}
      (named : SpellsKey key cs ds) (spells : Spells ds j (ws ++ ',' :: es)) (blanks : Blanks ws)
      (others : SpellsMembers es members rest) : SpellsMembers cs ((key, j) :: members) rest

end

/-! ### Blanks -/

theorem skip_append {ws : List Char} (h : Blanks ws) (cs : List Char) : skip (ws ++ cs) = skip cs :=
  List.dropWhile_append_of_pos h

theorem skip_cons {c : Char} (h : isBlank c = true) (cs : List Char) : skip (c :: cs) = skip cs :=
  List.dropWhile_cons_of_pos h

theorem skip_of_not {c : Char} (h : isBlank c = false) (cs : List Char) : skip (c :: cs) = c :: cs :=
  List.dropWhile_cons_of_neg (by simp [h])

theorem skip_append_cons {ws : List Char} (h : Blanks ws) {c : Char} (hc : isBlank c = false)
    (cs : List Char) : skip (ws ++ c :: cs) = c :: cs := by
  rw [skip_append h, skip_of_not hc]

/-! ### Numerals -/

/-- Only zero begins with a zero. -/
theorem head?_toDigits (n : Nat) (h : n ≠ 0) : (Nat.toDigits 10 n).head? ≠ some '0' := by
  induction n using Nat.strongRecOn with
  | ind n ih =>
    rcases Nat.lt_or_ge n 10 with hlt | hge
    · have digit : ∀ d < 10, d ≠ 0 → [Nat.digitChar d].head? ≠ some '0' := by decide
      rw [Nat.toDigits_of_lt_base hlt]
      exact digit n hlt h
    · obtain ⟨c, ds, hcons⟩ := List.exists_cons_of_ne_nil (Nat.toDigits_ne_nil (n := n / 10) (b := 10))
      have front := ih (n / 10) (by omega) (by omega)
      rw [Nat.toDigits_of_base_le (by decide) hge]
      rw [hcons] at front ⊢
      exact front

theorem toDigits_zero : Nat.toDigits 10 0 = ['0'] := by decide

/-- The digits of a number, the first of them apart. -/
theorem exists_toDigits (n : Nat) :
    ∃ c ds, Nat.toDigits 10 n = c :: ds ∧ c.isDigit = true ∧ (c = '0' → n = 0 ∧ ds = []) := by
  obtain ⟨c, ds, h⟩ := List.exists_cons_of_ne_nil (Nat.toDigits_ne_nil (n := n) (b := 10))
  refine ⟨c, ds, h, Nat.isDigit_of_mem_toDigits (b := 10) (n := n) (by decide) (by decide) ?_, ?_⟩
  · rw [h]
    exact List.mem_cons_self ..
  · rintro rfl
    by_cases hn : n = 0
    · subst hn
      rw [toDigits_zero] at h
      cases h
      exact ⟨rfl, rfl⟩
    · exact absurd (by rw [h]; rfl) (head?_toDigits n hn)

theorem digits?_toDigits (n : Nat) {rest : List Char} (ends : EndsNumeral rest) :
    digits? (Nat.toDigits 10 n ++ rest) = some (Nat.toDigits 10 n, rest) := by
  have digits : ∀ c ∈ Nat.toDigits 10 n, c.isDigit = true := fun c hc =>
    Nat.isDigit_of_mem_toDigits (by decide) (by decide) hc
  have stop : rest.takeWhile Char.isDigit = [] ∧ rest.dropWhile Char.isDigit = rest := by
    cases rest with
    | nil => exact ⟨rfl, rfl⟩
    | cons c rest =>
      have := (ends c rfl).1
      simp [this]
  rw [digits?, List.takeWhile_append_of_pos digits, List.dropWhile_append_of_pos digits, stop.1, stop.2,
    List.append_nil, if_neg (by simp [Nat.toDigits_ne_nil])]

theorem whole?_toDigits (n : Nat) {rest : List Char} (ends : EndsNumeral rest) :
    whole? (Nat.toDigits 10 n ++ rest) = some (n, rest) := by
  have digits := digits?_toDigits n ends
  have value : Nat.ofDigitChars 10 (Nat.toDigits 10 n) 0 = n :=
    Nat.ofDigitChars_toDigits (by decide) (by decide)
  obtain ⟨c, ds, h, -, hzero⟩ := exists_toDigits n
  rw [h] at digits value ⊢
  rw [List.cons_append] at digits ⊢
  rw [whole?]
  split
  · next hc =>
    obtain ⟨rfl, rfl⟩ := hzero hc
    rfl
  · rw [digits, Option.map_some, value]

theorem unsigned?_toDigits (n : Nat) {rest : List Char} (ends : EndsNumeral rest) :
    unsigned? false (Nat.toDigits 10 n ++ rest) = some (.ofNat n, rest) := by
  have behind : fraction? rest = some ([], rest) ∧ exponent? rest = some (none, rest) := by
    cases rest with
    | nil => exact ⟨rfl, rfl⟩
    | cons c rest =>
      obtain ⟨-, hpoint, he, hE⟩ := ends c rfl
      refine ⟨?_, if_neg (by simp [he, hE])⟩
      rw [fraction?]
      intro x hx
      cases hx
      exact hpoint rfl
  rw [unsigned?, whole?_toDigits n ends]
  simp only [Option.bind_eq_bind, Option.bind_some, behind.1, behind.2]
  rfl

theorem ne_of_isDigit {c d : Char} (hc : c.isDigit = true) (hd : d.isDigit = false) : c ≠ d := by
  rintro rfl
  rw [hc] at hd
  cases hd

theorem skip_of_digit {c : Char} (hc : c.isDigit = true) (cs : List Char) : skip (c :: cs) = c :: cs := by
  have blank : isBlank c = false := by
    simp [isBlank, ne_of_isDigit hc (d := ' ') (by decide), ne_of_isDigit hc (d := '\t') (by decide),
      ne_of_isDigit hc (d := '\n') (by decide), ne_of_isDigit hc (d := '\r') (by decide)]
  exact skip_of_not blank cs

/-- Nothing but a numeral begins with a digit. -/
theorem value?_of_digit {c : Char} (hc : c.isDigit = true) (fuel : Nat) (cs : List Char) :
    value? (fuel + 1) (c :: cs) = (unsigned? false (c :: cs)).map fun p => (number p.1, p.2) := by
  have word {d : Char} {ds : List Char} (hd : d.isDigit = false) : expect (d :: ds) (c :: cs) = none :=
    if_neg (by simp [(ne_of_isDigit hc hd).symm])
  have numeral : numeral? (c :: cs) = unsigned? false (c :: cs) := by
    rw [numeral?]
    intro x hx
    cases hx
    exact absurd hc (by decide)
  rw [value?, skip_of_digit hc]
  split
  · next h => cases h; exact absurd hc (by decide)
  · next h => cases h; exact absurd hc (by decide)
  · next h => cases h; exact absurd hc (by decide)
  · rw [scalar?, word (by decide), word (by decide), word (by decide), numeral]

/-! ### Reading spellings -/

/-- What is read does not depend on blanks before it. -/
theorem value?_skip {cs ds : List Char} (h : skip cs = skip ds) (fuel : Nat) :
    value? fuel cs = value? fuel ds := by
  cases fuel with
  | zero => rfl
  | succ fuel => rw [value?, value?, h]

theorem key?_of_spellsKey {key : String} {cs rest : List Char} (h : SpellsKey key cs rest) :
    key? cs = some (.ofText key, rest) := by
  obtain ⟨before, behind⟩ := h
  have quote := skip_append_cons before (c := '"') (by decide)
  have colon := skip_append_cons behind (c := ':') (by decide)
  simp only [key?, quote, Literal.scan_ofText, Option.bind_some, colon]

theorem SpellsKey.length_lt {key : String} {cs rest : List Char} (h : SpellsKey key cs rest) :
    rest.length < cs.length := by
  obtain ⟨before, behind⟩ := h
  simp only [List.length_append, List.length_cons]
  omega

mutual

/-- A spelling takes up some characters. -/
theorem Spells.length_lt {cs rest : List Char} {j : Json} : Spells cs j rest → rest.length < cs.length
  | .blank _ spells => Nat.lt_succ_of_lt spells.length_lt
  | .null | .yes | .no => by simp only [List.length_cons]; omega
  | .number _ => by
    have := List.length_pos_iff.2 (Nat.toDigits_ne_nil (n := ‹Nat›) (b := 10))
    rw [List.length_append]
    omega
  | .text | .noItems _ | .noMembers _ => by
    simp only [List.length_append, List.length_cons]
    omega
  | .items spells => Nat.lt_succ_of_lt spells.length_lt
  | .members spells => Nat.lt_succ_of_lt spells.length_lt

theorem SpellsItems.length_lt {cs rest : List Char} {items : List Json} :
    SpellsItems cs items rest → rest.length < cs.length
  | .last spells _ => by
    have := spells.length_lt
    simp only [List.length_append, List.length_cons] at this
    omega
  | .next spells _ others => by
    have := spells.length_lt
    have := others.length_lt
    simp only [List.length_append, List.length_cons] at *
    omega

theorem SpellsMembers.length_lt {cs rest : List Char} {members : List (String × Json)} :
    SpellsMembers cs members rest → rest.length < cs.length
  | .last named spells _ => by
    have := named.length_lt
    have := spells.length_lt
    simp only [List.length_append, List.length_cons] at this
    omega
  | .next named spells _ others => by
    have := named.length_lt
    have := spells.length_lt
    have := others.length_lt
    simp only [List.length_append, List.length_cons] at *
    omega

end

/-- No spelling begins with the bracket that ends an array. -/
theorem Spells.front {cs rest : List Char} {j : Json} : Spells cs j rest →
    ∃ c ds, skip cs = c :: ds ∧ c ≠ ']'
  | .blank hc spells => by
    rw [skip_cons hc]
    exact spells.front
  | .null | .yes | .no | .text | .noItems _ | .items _ | .noMembers _ | .members _ =>
    ⟨_, _, rfl, by decide⟩
  | .number (n := n) _ => by
    obtain ⟨c, ds, h, hc, -⟩ := exists_toDigits n
    rw [h, List.cons_append, skip_of_digit hc]
    exact ⟨c, _, rfl, ne_of_isDigit hc (by decide)⟩

theorem SpellsItems.front {cs rest : List Char} {items : List Json} : SpellsItems cs items rest →
    ∃ c ds, skip cs = c :: ds ∧ c ≠ ']'
  | .last spells _ | .next spells _ _ => spells.front

theorem SpellsMembers.front {cs rest : List Char} {members : List (String × Json)} :
    SpellsMembers cs members rest → ∃ ds, skip cs = '"' :: ds
  | .last ⟨before, _⟩ _ _ | .next ⟨before, _⟩ _ _ _ => ⟨_, skip_append_cons before (by decide) _⟩

-- Reading an item or a member takes two steps of fuel, and at least one character.
mutual

/-- A spelling is read as the document, whatever is behind it. -/
theorem value?_of_spells {cs rest : List Char} {j : Json} : Spells cs j rest →
    ∀ fuel, 2 * cs.length ≤ fuel → value? fuel cs = some (j, rest)
  | .blank hc spells, fuel, h => by
    rw [value?_skip (skip_cons hc _)]
    exact value?_of_spells spells fuel (by rw [List.length_cons] at h; omega)
  | .null, fuel + 1, h | .yes, fuel + 1, h | .no, fuel + 1, h => rfl
  | .number (n := n) ends, fuel, h => by
    obtain ⟨c, ds, hcons, hc, -⟩ := exists_toDigits n
    have := unsigned?_toDigits n ends
    rw [hcons] at h this ⊢
    obtain ⟨fuel, rfl⟩ : ∃ k, fuel = k + 1 := ⟨fuel - 1, by simp at h; omega⟩
    rw [List.cons_append] at this ⊢
    rw [value?_of_digit hc, this]
    rfl
  | .text, fuel + 1, h => by
    have quote := skip_of_not (c := '"') (by decide)
    simp only [value?, quote, Literal.scan_ofText, Option.map_some]
    rfl
  | .noItems blanks, fuel + 1, h => by
    have bracket := skip_of_not (c := '[') (by decide)
    have close := skip_append_cons blanks (c := ']') (by decide)
    simp only [value?, bracket, close]
  | .items spells, fuel + 1, h => by
    have bracket := skip_of_not (c := '[') (by decide)
    have items := itemsFrom?_of_spells spells fuel (by rw [List.length_cons] at h; omega)
    obtain ⟨c, ds, hskip, hc⟩ := spells.front
    simp only [value?, bracket]
    split
    · next hclose =>
      rw [hskip] at hclose
      cases hclose
      exact absurd rfl hc
    · rw [items, Option.map_some]
  | .noMembers blanks, fuel + 1, h => by
    have brace := skip_of_not (c := '\x7b') (by decide)
    have close := skip_append_cons blanks (c := '\x7d') (by decide)
    simp only [value?, brace, close]
    rfl
  | .members spells, fuel + 1, h => by
    have brace := skip_of_not (c := '\x7b') (by decide)
    have members := membersFrom?_of_spells spells fuel (by rw [List.length_cons] at h; omega)
    obtain ⟨ds, hskip⟩ := spells.front
    simp only [value?, brace]
    split
    · next hclose =>
      rw [hskip] at hclose
      cases hclose
    · rw [members, Option.map_some]
      rfl

theorem itemsFrom?_of_spells {cs rest : List Char} {items : List Json} : SpellsItems cs items rest →
    ∀ fuel, 2 * cs.length + 1 ≤ fuel → itemsFrom? fuel cs = some (items, rest)
  | .last spells blanks, fuel + 1, h => by
    have item := value?_of_spells spells fuel (by omega)
    have close := skip_append_cons blanks (c := ']') (by decide)
    simp only [itemsFrom?, item, Option.bind_some, close]
  | .next spells blanks others, fuel + 1, h => by
    have shorter := spells.length_lt
    rw [List.length_append, List.length_cons] at shorter
    have item := value?_of_spells spells fuel (by omega)
    have items := itemsFrom?_of_spells others fuel (by omega)
    have comma := skip_append_cons blanks (c := ',') (by decide)
    simp only [itemsFrom?, item, Option.bind_some, comma, items, Option.map_some]

theorem membersFrom?_of_spells {cs rest : List Char} {members : List (String × Json)} :
    SpellsMembers cs members rest → ∀ fuel, 2 * cs.length + 1 ≤ fuel →
      membersFrom? fuel cs = some (members.map fun p => (.ofText p.1, p.2), rest)
  | .last named spells blanks, fuel + 1, h => by
    have shorter := named.length_lt
    have member := value?_of_spells spells fuel (by omega)
    have close := skip_append_cons blanks (c := '\x7d') (by decide)
    simp only [membersFrom?, key?_of_spellsKey named, Option.bind_some, member, close]
    rfl
  | .next named spells blanks others, fuel + 1, h => by
    have shorter := named.length_lt
    have shorter' := spells.length_lt
    rw [List.length_append, List.length_cons] at shorter'
    have member := value?_of_spells spells fuel (by omega)
    have members := membersFrom?_of_spells others fuel (by omega)
    have comma := skip_append_cons blanks (c := ',') (by decide)
    simp only [membersFrom?, key?_of_spellsKey named, Option.bind_some, member, comma, members,
      Option.map_some, List.map_cons]

end

/-- A text spells a document, and has nothing but blanks behind it. -/
def SpelledBy (j : Json) (text : String) : Prop := ∃ ws, Blanks ws ∧ Spells text.toList j ws

/-- A text is read as the document it spells, if that is not nested too deep. -/
theorem parse?_of_spelledBy {j : Json} {text : String} (h : j.SpelledBy text)
    (shallow : j.depth ≤ nestingLimit) : parse? text = some j := by
  obtain ⟨ws, blanks, spells⟩ := h
  have none : skip ws = [] := by
    rw [← List.append_nil ws, skip_append blanks]
    rfl
  rw [parse?, parseChars?, value?_of_spells spells _ (Nat.le_add_right ..), Option.bind_some]
  simp only [none, List.isEmpty_nil, if_true, Option.map_some, upTo_of_depth_le shallow]

/-! ### What writers make -/

/-- A document as it is made to be written: with plain numbers, and texts for strings and keys. -/
inductive Canonical : Json → Prop where
  /-- Nothing. -/
  | null : Canonical .null
  /-- A truth value. -/
  | bool (b : Bool) : Canonical (.bool b)
  /-- A number of 64 bits. -/
  | ofNat {n : Nat} (small : n < Numeral.significandLimit) : Canonical (.ofNat n)
  /-- A text. -/
  | ofText (s : String) : Canonical (.ofText s)
  /-- An array. -/
  | array {items : List Json} (canonical : ∀ j ∈ items, Canonical j) : Canonical (.array items)
  /-- An object. -/
  | record {members : List (String × Json)} (canonical : ∀ p ∈ members, Canonical p.2) :
      Canonical (.record members)

theorem chars_ofNat (n : Nat) : (Json.ofNat n).chars = Nat.toDigits 10 n := by
  simp [Json.ofNat, chars, Numeral.chars, Numeral.ofNat]

theorem endsNumeral_cons {c : Char} (hc : c.isDigit = false ∧ c ≠ '.' ∧ c ≠ 'e' ∧ c ≠ 'E')
    (rest : List Char) : EndsNumeral (c :: rest) := by
  rintro d hd
  cases hd
  exact hc

theorem endsNumeral_append {ws rest : List Char} (blanks : Blanks ws) (h : EndsNumeral rest) :
    EndsNumeral (ws ++ rest) := by
  cases ws with
  | nil => exact h
  | cons c ws =>
    have hc := blanks c (List.mem_cons_self ..)
    simp only [isBlank, Bool.or_eq_true, beq_iff_eq] at hc
    refine endsNumeral_cons ?_ _
    rcases hc with ((rfl | rfl) | rfl) | rfl <;> decide

theorem blanks_nil : Blanks [] := List.forall_mem_nil _

theorem blanks_newline (level : Nat) : Blanks (newline level) := by
  intro c hc
  rcases List.mem_cons.1 hc with rfl | hc
  · rfl
  · rw [List.eq_of_mem_replicate hc]
    rfl

theorem blanks_space : Blanks [' '] := by
  intro c hc
  rw [List.mem_singleton.1 hc]
  rfl

/-- Blanks may come first. -/
theorem Spells.after {ws cs rest : List Char} {j : Json} (blanks : Blanks ws) (h : Spells cs j rest) :
    Spells (ws ++ cs) j rest := by
  induction ws with
  | nil => exact h
  | cons c ws ih =>
    exact .blank (blanks c (List.mem_cons_self ..)) (ih fun x hx => blanks x (List.mem_cons_of_mem _ hx))

theorem SpellsItems.after {ws cs rest : List Char} {items : List Json} (blanks : Blanks ws) :
    SpellsItems cs items rest → SpellsItems (ws ++ cs) items rest
  | .last spells hws => .last (spells.after blanks) hws
  | .next spells hws others => .next (spells.after blanks) hws others

theorem SpellsKey.after {ws cs rest : List Char} {key : String} (blanks : Blanks ws)
    (h : SpellsKey key cs rest) : SpellsKey key (ws ++ cs) rest := by
  obtain ⟨before, behind⟩ := h
  rw [← List.append_assoc]
  exact .mk (fun c hc => (List.mem_append.1 hc).elim (blanks c) (before c)) behind

theorem SpellsMembers.after {ws cs rest : List Char} {members : List (String × Json)} (blanks : Blanks ws) :
    SpellsMembers cs members rest → SpellsMembers (ws ++ cs) members rest
  | .last named spells hws => .last (named.after blanks) spells hws
  | .next named spells hws others => .next (named.after blanks) spells hws others

theorem spellsKey_chars (key : String) (rest : List Char) :
    SpellsKey key ((Literal.ofText key).chars ++ ':' :: rest) rest := by
  have plain : SpellsKey key ([] ++ '"' :: ((Literal.ofText key).written ++ '"' :: ([] ++ ':' :: rest))) rest :=
    .mk blanks_nil blanks_nil
  simpa [Literal.chars] using plain

section Layout

variable {write : Json → List Char} {before last : List Char}

/-- Items that are written one after the other, with commas and blanks between them, are spelled. -/
theorem spellsItems_of_layout (all : List Json → List Char) (hbefore : Blanks before) (hlast : Blanks last)
    (one : ∀ j, all [j] = write j ++ (last ++ [']']))
    (more : ∀ j k items, all (j :: k :: items) = write j ++ ',' :: (before ++ all (k :: items)))
    {items : List Json} (hne : items ≠ [])
    (each : ∀ j ∈ items, ∀ rest, EndsNumeral rest → Spells (write j ++ rest) j rest) (rest : List Char) :
    SpellsItems (all items ++ rest) items rest := by
  induction items with
  | nil => exact absurd rfl hne
  | cons j items ih =>
    have first := each j (List.mem_cons_self ..)
    cases items with
    | nil =>
      rw [one, List.append_assoc, List.append_assoc]
      exact .last (first _ (endsNumeral_append hlast (endsNumeral_cons (by decide) _))) hlast
    | cons k items =>
      have others := ih (List.cons_ne_nil _ _) fun x hx => each x (List.mem_cons_of_mem _ hx)
      rw [more, List.append_assoc, List.cons_append, List.append_assoc]
      exact .next (first _ (endsNumeral_cons (by decide) _)) blanks_nil (others.after hbefore)

/-- Members that are written one after the other, with commas and blanks between them, are spelled. -/
theorem spellsMembers_of_layout (all : List (Literal × Json) → List Char) {gap : List Char}
    (hbefore : Blanks before) (hlast : Blanks last) (hgap : Blanks gap)
    (one : ∀ key j, all [(key, j)] = key.chars ++ ':' :: (gap ++ (write j ++ (last ++ ['\x7d']))))
    (more : ∀ key j m members, all ((key, j) :: m :: members) =
      key.chars ++ ':' :: (gap ++ (write j ++ ',' :: (before ++ all (m :: members)))))
    {members : List (String × Json)} (hne : members ≠ [])
    (each : ∀ p ∈ members, ∀ rest, EndsNumeral rest → Spells (write p.2 ++ rest) p.2 rest)
    (rest : List Char) :
    SpellsMembers (all (members.map fun p => (.ofText p.1, p.2)) ++ rest) members rest := by
  induction members with
  | nil => exact absurd rfl hne
  | cons p members ih =>
    obtain ⟨key, j⟩ := p
    have first := each (key, j) (List.mem_cons_self ..)
    cases members with
    | nil =>
      simp only [List.map_cons, List.map_nil, one, List.append_assoc, List.cons_append]
      exact .last (spellsKey_chars key _)
        ((first _ (endsNumeral_append hlast (endsNumeral_cons (by decide) _))).after hgap) hlast
    | cons m members =>
      have others := ih (List.cons_ne_nil _ _) fun x hx => each x (List.mem_cons_of_mem _ hx)
      simp only [List.map_cons, more, List.append_assoc, List.cons_append] at others ⊢
      exact .next (spellsKey_chars key _) ((first _ (endsNumeral_cons (by decide) _)).after hgap) blanks_nil
        (others.after hbefore)

end Layout

/-- Documents without blanks are spelled. -/
theorem Canonical.spells_chars {j : Json} (h : Canonical j) :
    ∀ rest, EndsNumeral rest → Spells (j.chars ++ rest) j rest := by
  induction h with
  | null => exact fun _ _ => .null
  | bool b =>
    cases b with
    | true => exact fun _ _ => .yes
    | false => exact fun _ _ => .no
  | ofNat => exact fun _ ends => by rw [chars_ofNat]; exact .number ends
  | ofText s =>
    intro rest _
    have quoted : Spells ('"' :: ((Literal.ofText s).written ++ '"' :: rest)) (.ofText s) rest := .text
    simpa [Json.ofText, chars, Literal.chars] using quoted
  | @array items _ each =>
    intro rest _
    cases items with
    | nil => exact .noItems blanks_nil
    | cons j items =>
      exact .items (spellsItems_of_layout charsOfItems blanks_nil blanks_nil
        (fun _ => by simp [charsOfItems]) (fun _ _ _ => by simp [charsOfItems]) (List.cons_ne_nil _ _) each rest)
  | @record members _ each =>
    intro rest _
    cases members with
    | nil => exact .noMembers blanks_nil
    | cons m members =>
      exact .members (spellsMembers_of_layout charsOfMembers blanks_nil blanks_nil blanks_nil
        (fun _ _ => by simp [charsOfMembers]) (fun _ _ _ _ => by simp [charsOfMembers])
        (List.cons_ne_nil _ _) each rest)

/-- Documents over several lines are spelled. -/
theorem Canonical.spells_prettyChars {j : Json} (h : Canonical j) :
    ∀ level rest, EndsNumeral rest → Spells (prettyChars level j ++ rest) j rest := by
  induction h with
  | null => exact fun _ _ _ => .null
  | bool b => exact fun _ => (Canonical.bool b).spells_chars
  | ofNat small => exact fun _ => (Canonical.ofNat small).spells_chars
  | ofText s => exact fun _ => (Canonical.ofText s).spells_chars
  | @array items _ each =>
    intro level rest _
    cases items with
    | nil => exact .noItems blanks_nil
    | cons j items =>
      have items := spellsItems_of_layout (prettyItems level) (blanks_newline (level + 1)) (blanks_newline level)
        (fun _ => by simp [prettyItems]) (fun _ _ _ => by simp [prettyItems]) (List.cons_ne_nil _ _)
        (fun j hj => each j hj (level + 1)) rest
      rw [prettyChars, List.append_assoc]
      exact .items (items.after (blanks_newline (level + 1)))
  | @record members _ each =>
    intro level rest _
    cases members with
    | nil => exact .noMembers blanks_nil
    | cons m members =>
      have members := spellsMembers_of_layout (prettyMembers level) (blanks_newline (level + 1))
        (blanks_newline level) blanks_space
        (fun _ _ => by simp [prettyMembers]) (fun _ _ _ _ => by simp [prettyMembers])
        (List.cons_ne_nil _ _) (fun p hp => each p hp (level + 1)) rest
      rw [Json.record, List.map_cons, prettyChars, List.append_assoc]
      exact .members (members.after (blanks_newline (level + 1)))

theorem endsNumeral_nil : EndsNumeral [] := fun _ h => by cases h

theorem Canonical.spelledBy_compact {j : Json} (h : Canonical j) : j.SpelledBy j.compact := by
  refine ⟨[], blanks_nil, ?_⟩
  rw [compact, String.toList_ofList]
  simpa using h.spells_chars [] endsNumeral_nil

theorem Canonical.spelledBy_pretty {j : Json} (h : Canonical j) : j.SpelledBy j.pretty := by
  refine ⟨[], blanks_nil, ?_⟩
  rw [pretty, String.toList_ofList]
  simpa using h.spells_prettyChars 0 [] endsNumeral_nil

/-- What is written compactly is read back, if it is not nested too deep. -/
theorem Canonical.parse?_compact {j : Json} (h : Canonical j) (shallow : j.depth ≤ nestingLimit) :
    parse? j.compact = some j :=
  parse?_of_spelledBy h.spelledBy_compact shallow

theorem areMeaningful_of_forall {items : List Json} (h : ∀ j ∈ items, j.isMeaningful = true) :
    areMeaningful items = true := by
  induction items with
  | nil => rfl
  | cons j items ih =>
    rw [areMeaningful, h j (List.mem_cons_self ..), ih fun x hx => h x (List.mem_cons_of_mem _ hx)]
    rfl

theorem membersMeaningful_of_forall {members : List (String × Json)}
    (h : ∀ p ∈ members, p.2.isMeaningful = true) :
    membersMeaningful (members.map fun p => (.ofText p.1, p.2)) = true := by
  induction members with
  | nil => rfl
  | cons p members ih =>
    rw [List.map_cons, membersMeaningful, Literal.text?_ofText, h p (List.mem_cons_self ..),
      ih fun x hx => h x (List.mem_cons_of_mem _ hx)]
    rfl

/-- A canonical document has a meaning. -/
theorem Canonical.isMeaningful {j : Json} (h : Canonical j) : j.isMeaningful = true := by
  induction h with
  | null | bool => rfl
  | ofNat small => exact Numeral.isFinite_ofNat small
  | ofText s =>
    rw [Json.ofText, Json.isMeaningful, Literal.text?_ofText]
    rfl
  | array _ each => exact areMeaningful_of_forall each
  | record _ each => exact membersMeaningful_of_forall each

end Json

end FlowRecovery
