/-!
# Offsets

Instructions are addressed by their byte offset inside one body. An offset is a 32-bit number, so
the place after the greatest offset does not exist: `Offset.next?` says so, and
`Offset.nextCapped` stays where it is.

`Count` is the type of the counts that options hold (columns, passes, parameters).
-/

namespace FlowRecovery

/-- A byte offset inside one body. -/
abbrev Offset := Fin 4294967296

/-- There are offsets, so numerals can stand for them. -/
instance instNeZeroOffset : @NeZero Nat Zero.ofOfNat0 4294967296 := Nat.instNeZeroSucc

/-- A count that an option may hold, a 64-bit number. -/
abbrev Count := Fin 18446744073709551616

/-- The count of nothing. -/
def Count.zero : Count := ⟨0, by decide⟩

namespace Offset

/-- The offset of the start of a body. -/
def zero : Offset := ⟨0, by decide⟩

/-- The offset one byte further, if there is one. -/
def next? (o : Offset) : Option Offset :=
  if h : o.val + 1 < 4294967296 then some ⟨o.val + 1, h⟩ else none

/-- The offset one byte further; the greatest offset is its own successor. -/
def nextCapped (o : Offset) : Offset := (next? o).getD o

/-- The decimal text of an offset. -/
def text (o : Offset) : String := Nat.repr o.val

theorem val_of_next? {o p : Offset} (h : next? o = some p) : p.val = o.val + 1 := by
  unfold next? at h
  split at h
  · cases h; rfl
  · cases h

end Offset

end FlowRecovery
