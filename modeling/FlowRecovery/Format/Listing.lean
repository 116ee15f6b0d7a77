import FlowRecovery.Format.Token
import FlowRecovery.Listing

/-!
# Listings as JSON

An entry is a record of its offset, the offset of its end, and its token; a missing end is not
written. A listing is an array of entries.

A listing file holds one listing or an array of listings, and is read as one listing if it can be.
It is read by way of a representation in which every key is a text and every literal and numeral has
a value. So label tables with entries cannot be read from a listing file; and a literal or numeral
without a value, or what is nested too deep, spoils the file wherever it stands.
-/

namespace FlowRecovery

namespace Entry

/-- An entry as a document. -/
def toJson (e : Entry) : Json :=
  .record ([("offset", .ofFin e.offset)] ++
    (match e.stop? with
     | none => []
     | some stop => [("end_offset", .ofFin stop)]) ++
    [("token", e.token.toJson)])

/-- Reads an entry. -/
def ofJson? (keys : Keys) (j : Json) : Option Entry :=
  match j.fields? ["offset", "end_offset", "token"] with
  | some [offset, stop?, token] => do
      let offset ← Json.required (Json.fin? 4294967296) offset
      let stop? ← Json.optional (Json.fin? 4294967296) stop?
      let token ← Json.required (Token.ofJson? keys) token
      return ⟨offset, stop?, token⟩
  | _ => none

end Entry

namespace Listing

/-- A listing as a document. -/
def toJson (l : Listing) : Json := .array (l.map Entry.toJson)

/-- Reads a listing. -/
def ofJson? (keys : Keys) (j : Json) : Option Listing := j.list? (Entry.ofJson? keys)

end Listing

/-- Reads the listings of a listing file. -/
def listingFile? (j : Json) : Option (List Listing) :=
  if j.isMeaningful then
    match Listing.ofJson? .asText j with
    | some l => some [l]
    | none => j.list? (Listing.ofJson? .asText)
  else none

end FlowRecovery
