import FlowRecovery.Block

/-!
# Listings

A listing is what a decoder says about one body: its instructions with their offsets. A listing is
accepted if its offsets increase strictly; otherwise the first pair of neighbours that do not
increase is the error.
-/

namespace FlowRecovery

/-- One instruction of a listing. -/
structure Entry where
  /-- Where the instruction starts. -/
  offset : Offset
  /-- Where the instruction ends, if that is known. -/
  stop? : Option Offset
  /-- The instruction. -/
  token : Token
  deriving DecidableEq

/-- The instructions of a body. -/
abbrev Listing := List Entry

/-- An offset of a listing is not greater than the one before it. -/
structure InvalidListing where
  /-- The offset before. -/
  previous : Offset
  /-- The offset that is not greater. -/
  offset : Offset
  deriving DecidableEq

/-- The text of the error. -/
def InvalidListing.message (e : InvalidListing) : String :=
  "statement offsets must be strictly increasing: " ++ e.previous.text ++ " followed by " ++
    e.offset.text

/-- The statement of an entry. -/
def Entry.statement (e : Entry) : Statement := .plain e.offset e.stop? [] e.token

namespace Listing

/-- The first pair of neighbours whose offsets do not increase. -/
def fault? : Listing → Option InvalidListing
  | [] => none
  | [_] => none
  | e :: f :: rest =>
      if e.offset < f.offset then fault? (f :: rest) else some ⟨e.offset, f.offset⟩

/-- The instructions of a listing as a block. -/
def block (l : Listing) : Block := ⟨[], l.map Entry.statement⟩

/-- The body of a listing whose offsets increase strictly. -/
def body (l : Listing) : Except InvalidListing Block :=
  match fault? l with
  | none => .ok l.block
  | some e => .error e

/-- A listing is accepted exactly if its offsets increase strictly. -/
theorem fault?_eq_none_iff (l : Listing) :
    fault? l = none ↔ (l.map Entry.offset).Pairwise (· < ·) := by
  induction l with
  | nil => simp [fault?]
  | cons e rest ih =>
    cases rest with
    | nil => simp [fault?]
    | cons f rest =>
      by_cases h : e.offset < f.offset
      · rw [fault?, if_pos h, ih]
        simp only [List.map_cons, List.pairwise_cons, List.mem_cons, forall_eq_or_imp, h, true_and]
        exact ⟨fun ⟨hf, hr⟩ => ⟨fun a ha => Fin.lt_trans h (hf a ha), hf, hr⟩, fun h => h.2⟩
      · simp [fault?, h]

end Listing

end FlowRecovery
