import FlowRecovery.CommandLine.Run
import FlowRecovery.Proofs.Codec

/-!
# Listing files

What a command line prints about a listing file should be what decompiling the listings in it gives
(`Request.Delivers`): all bodies in order, or the first listing that is not accepted, under its number.
For any listings this is one thing (`Request.delivers_iff_eq`), so it is all about what is read from a file.

The listings in a file are read exactly if no label table in it has an entry
(`runArguments_delivers_iff`). A listing file is read by way of a representation in which every key is a
text, and a label table has numbers for keys. So a file with a label is no listing file, though each of its
listings is read on its own (`Listing.ofJson?_toJson`).

Apart from that a file with one listing is never taken for one with several, nor the other way round
(`listingFile?_toJson`, `listingFile?_array`): an entry is an object, and no listing is an entry.
-/

namespace FlowRecovery

/-! ### Reading listing files -/

/-- No listing is an entry: an entry that is an array begins with its offset. -/
theorem Entry.ofJson?_listing (keys : Keys) (l : Listing) : Entry.ofJson? keys (Listing.toJson l) = none := by
  cases l with
  | nil => rfl
  | cons e l =>
    rw [Entry.ofJson?, Listing.toJson, List.map_cons, Json.fields?]
    split
    · next offset stop token h =>
      split at h
      · have front := congrArg (List.head?) (Option.some.inj h)
        have : offset = some e.toJson := by simpa using front.symm
        rw [this]
        rfl
      · cases h
    · rfl

/-- No entry is a listing. -/
theorem Listing.ofJson?_entry (keys : Keys) (e : Entry) : Listing.ofJson? keys e.toJson = none := rfl

/-- A file with one listing is read as that listing, if its label tables are empty. -/
theorem listingFile?_toJson (l : Listing) :
    listingFile? (Listing.toJson l) = if Listing.legible .asText l then some [l] else none := by
  rw [listingFile?, if_pos (Listing.canonical_toJson l).isMeaningful, Listing.ofJson?_toJson]
  cases h : Listing.legible .asText l with
  | true => rfl
  | false =>
    -- It is not taken for several listings then: its first entry is no listing.
    cases l with
    | nil => cases h
    | cons e l =>
      rw [Listing.toJson, Json.list?, Json.items?, Option.bind_some, List.map_cons, List.mapM_cons,
        Listing.ofJson?_entry]
      rfl

theorem canonical_listings (ls : List Listing) : (Json.array (ls.map Listing.toJson)).Canonical :=
  .array fun j hj => by
    obtain ⟨l, -, rfl⟩ := List.mem_map.1 hj
    exact Listing.canonical_toJson l

/-- A file with some listings is read as those listings, if their label tables are empty. -/
theorem listingFile?_array {ls : List Listing} (hne : ls ≠ []) :
    listingFile? (.array (ls.map Listing.toJson)) =
      if ls.all (Listing.legible .asText) then some ls else none := by
  have single : Listing.ofJson? .asText (.array (ls.map Listing.toJson)) = none := by
    obtain ⟨l, rest, rfl⟩ := List.exists_cons_of_ne_nil hne
    rw [Listing.ofJson?, Json.list?, Json.items?, Option.bind_some, List.map_cons, List.mapM_cons,
      Entry.ofJson?_listing]
    rfl
  rw [listingFile?, if_pos (canonical_listings ls).isMeaningful, single]
  exact Json.list?_array (Listing.ofJson?_toJson .asText) ls

namespace Request

/-! ### What a run has to come to -/

/-- There is room for the default values of all bodies. A listing that is not accepted has no body. -/
def HasRoom (options : Options) (ls : List Listing) : Prop :=
  options.parametersFit = true ∨ ∀ l ∈ ls, Listing.fault? l ≠ none

/-- What a run over the listings `ls` has to come to. -/
inductive Delivers (r : Request) (options : Options) (ls : List Listing) : Except Failure String → Prop where
  /-- Every listing is accepted, and the bodies are printed in order. -/
  | printed {bodies : List Body} (room : HasRoom options ls)
      (accepted : ls.map (Listing.decompile options) = bodies.map .ok) :
      Delivers r options ls (.ok (r.report bodies))
  /-- The first listing that is not accepted is reported under its number. -/
  | rejected {before behind : List Listing} {l : Listing} {bodies : List Body} {cause : InvalidListing}
      (room : HasRoom options ls) (split : ls = before ++ l :: behind)
      (accepted : before.map (Listing.decompile options) = bodies.map .ok)
      (fault : Listing.decompile options l = .error cause) :
      Delivers r options ls (.error (.rejected before.length cause))
  /-- There is no room for the default values of a body. -/
  | full (full : ¬HasRoom options ls) : Delivers r options ls (.error .tooManyParameters)

theorem hasRoom_iff {options : Options} {ls : List Listing} :
    (options.parametersFit || ls.all fun l => (Listing.fault? l).isSome) = true ↔ HasRoom options ls := by
  simp [HasRoom, Option.isSome_iff_ne_none]

/-- All results are bodies, or there is a first one that is not. -/
theorem results_cases (results : List (Except InvalidListing Body)) :
    (∃ bodies : List Body, results = bodies.map .ok) ∨
      ∃ (bodies : List Body) (cause : InvalidListing) (behind : List (Except InvalidListing Body)),
        results = bodies.map .ok ++ .error cause :: behind := by
  induction results with
  | nil => exact .inl ⟨[], rfl⟩
  | cons result results ih =>
    cases result with
    | error cause => exact .inr ⟨[], cause, results, rfl⟩
    | ok body =>
      rcases ih with ⟨bodies, rfl⟩ | ⟨bodies, cause, behind, rfl⟩
      · exact .inl ⟨body :: bodies, rfl⟩
      · exact .inr ⟨body :: bodies, cause, behind, rfl⟩

theorem accepted_map_ok (bodies : List Body) : ∀ index, accepted index (bodies.map .ok) = .ok bodies := by
  induction bodies with
  | nil => exact fun _ => rfl
  | cons body bodies ih =>
    intro index
    rw [List.map_cons, accepted, ih]
    rfl

theorem accepted_of_error (bodies : List Body) (cause : InvalidListing)
    (behind : List (Except InvalidListing Body)) :
    ∀ index, accepted index (bodies.map .ok ++ .error cause :: behind) =
      .error (.rejected (index + bodies.length) cause) := by
  induction bodies with
  | nil => exact fun _ => rfl
  | cons body bodies ih =>
    intro index
    rw [List.map_cons, List.cons_append, accepted, ih, List.length_cons, Nat.add_right_comm]
    rfl

/-- There is one thing that a run over listings has to come to, and it is what the run comes to. -/
theorem delivers_iff_eq {r : Request} {options : Options} {ls : List Listing}
    {outcome : Except Failure String} :
    r.Delivers options ls outcome ↔ outcome = (bodies options ls).map r.report := by
  constructor
  · rintro (⟨room, heq⟩ | @⟨before, behind, l, bodies', cause, room, rfl, heq, fault⟩ | full)
    · rw [bodies, decompileAll?, if_pos (hasRoom_iff.2 room)]
      dsimp only
      rw [decompileAll, heq, accepted_map_ok]
      rfl
    · rw [bodies, decompileAll?, if_pos (hasRoom_iff.2 room)]
      dsimp only
      have hlen : before.length = bodies'.length := by simpa using congrArg List.length heq
      rw [decompileAll, List.map_append, List.map_cons, heq, fault, accepted_of_error, Nat.zero_add, hlen]
      rfl
    · rw [bodies, decompileAll?, if_neg (mt hasRoom_iff.1 full)]
      rfl
  · rintro rfl
    by_cases room : HasRoom options ls
    · rw [bodies, decompileAll?, if_pos (hasRoom_iff.2 room)]
      dsimp only
      rcases results_cases (decompileAll options ls) with ⟨bodies, heq⟩ | ⟨bodies, cause, behind, heq⟩
      · rw [heq, accepted_map_ok]
        exact .printed room heq
      · rw [heq, accepted_of_error, Nat.zero_add]
        obtain ⟨before, rest, hls, hbefore, hrest⟩ := List.map_eq_append_iff.1 heq
        obtain ⟨l, behind, rfl, hl, -⟩ := List.map_eq_cons_iff.1 hrest
        have hlen : before.length = bodies.length := by simpa using congrArg List.length hbefore
        rw [← hlen]
        exact .rejected room hls hbefore hl
    · rw [bodies, decompileAll?, if_neg (mt hasRoom_iff.1 room)]
      exact .full room

/-! ### Runs over listing files -/

variable {read : String → Option String} {r : Request} {path text : String} {options : Options}

/-- A run over a file that holds a document. -/
theorem run_of_spelledBy {j : Json} (file : r.listing? = some path) (contents : read path = some text)
    (settings : r.options read = .ok options) (spelled : j.SpelledBy text)
    (shallow : j.depth ≤ Json.nestingLimit) :
    r.run read =
      match listingFile? j with
      | none => .error (.invalidListing path)
      | some ls => (bodies options ls).map r.report := by
  have parsed := Json.parse?_of_spelledBy spelled shallow
  have found : r.listings read = match listingFile? j with
      | none => .error (.invalidListing path)
      | some ls => .ok ls := by
    cases decoded : listingFile? j with
    | none => simp only [listings, file, contents, parsed, Option.bind_some, decoded]
    | some ls => simp only [listings, file, contents, parsed, Option.bind_some, decoded]
  rw [run, settings, found]
  cases listingFile? j with
  | none => rfl
  | some ls =>
    show (bodies options ls >>= fun bodies => pure (r.report bodies)) = (bodies options ls).map r.report
    cases bodies options ls <;> rfl

theorem not_delivers_invalidListing {ls : List Listing} :
    ¬r.Delivers options ls (.error (.invalidListing path)) := by
  intro h
  cases h

/-- A run over listings that are read if their label tables are empty. -/
theorem delivers_iff {j : Json} {ls : List Listing} {legible : Bool} (file : r.listing? = some path)
    (contents : read path = some text) (settings : r.options read = .ok options)
    (spelled : j.SpelledBy text) (shallow : j.depth ≤ Json.nestingLimit)
    (listings : listingFile? j = if legible then some ls else none) :
    r.Delivers options ls (r.run read) ↔ legible = true := by
  rw [run_of_spelledBy file contents settings spelled shallow, listings]
  cases legible with
  | false => exact ⟨fun h => absurd h not_delivers_invalidListing, Bool.noConfusion⟩
  | true => exact ⟨fun _ => rfl, fun _ => delivers_iff_eq.2 rfl⟩

end Request

/-- **A command line prints about a listing file what decompiling its listings gives, exactly if no label
table in it has an entry.** -/
theorem runArguments_delivers_iff {read : String → Option String} {arguments : List String} {r : Request}
    {path text : String} {options : Options} (request : Request.ofArguments? arguments = some r)
    (file : r.listing? = some path) (contents : read path = some text)
    (settings : r.options read = .ok options) :
    (∀ l : Listing, (Listing.toJson l).SpelledBy text → (Listing.toJson l).depth ≤ Json.nestingLimit →
        (r.Delivers options [l] (runArguments read arguments) ↔ Listing.legible .asText l = true)) ∧
      ∀ ls : List Listing, ls ≠ [] → (Json.array (ls.map Listing.toJson)).SpelledBy text →
        (Json.array (ls.map Listing.toJson)).depth ≤ Json.nestingLimit →
          (r.Delivers options ls (runArguments read arguments) ↔
            ∀ l ∈ ls, Listing.legible .asText l = true) := by
  have run : runArguments read arguments = r.run read := by rw [runArguments, request]
  rw [run]
  refine ⟨fun l spelled shallow => ?_, fun ls hne spelled shallow => ?_⟩
  · exact Request.delivers_iff file contents settings spelled shallow (listingFile?_toJson l)
  · rw [Request.delivers_iff file contents settings spelled shallow (listingFile?_array hne),
      List.all_eq_true]

/-- The one file there is. -/
def onlyFile (text : String) (path : String) : Option String := if path = "l.json" then some text else none

/-- A selection behind a text with quotes and a line break and an empty label table. -/
def unlabelledListing : Listing :=
  [⟨0, some 4, .expression "say(\"a\n\")"⟩, ⟨4, none, .labelTable ∅⟩,
    ⟨8, none, .switch (.expression "d")⟩, ⟨12, none, .foreachWith (.expression "E") (.expression "i") 20⟩]

/-- A listing that is not accepted. -/
def unorderedListing : Listing :=
  [⟨9, none, .retValue (.undecoded "end" (some ⟨7, by decide⟩))⟩, ⟨9, none, .nothing⟩]

theorem runArguments_delivers_unlabelledListing :
    Request.ofArguments? ["l.json"] = some { listing? := some "l.json" } ∧
      (Listing.toJson unlabelledListing).depth ≤ Json.nestingLimit ∧
      Request.Delivers { listing? := some "l.json" } .standard [unlabelledListing]
        (runArguments (onlyFile (Listing.toJson unlabelledListing).compact) ["l.json"]) ∧
      Request.Delivers { listing? := some "l.json" } .standard [unlabelledListing, unorderedListing]
        (runArguments (onlyFile
          (Json.array ([unlabelledListing, unorderedListing].map Listing.toJson)).pretty) ["l.json"]) := by
  have request : Request.ofArguments? ["l.json"] = some { listing? := some "l.json" } := by decide
  have single := (Listing.canonical_toJson unlabelledListing).spelledBy_compact
  have several := (canonical_listings [unlabelledListing, unorderedListing]).spelledBy_pretty
  refine ⟨request, by decide, ?_, ?_⟩
  · exact ((runArguments_delivers_iff request rfl (if_pos rfl) rfl).1 _ single (by decide)).2 (by decide)
  · exact ((runArguments_delivers_iff request rfl (if_pos rfl) rfl).2 _ (by decide) several (by decide)).2
      (by decide)

/-- A loop that an entry of its label table names. -/
def labelledListing : Listing :=
  [⟨0, none, .labelTable (.ofList [(1, "Loop")])⟩, ⟨1, none, .expression "f()"⟩]

/-- The text of the listing with a label is read as that listing, and the listing is decompiled; but a file
with that text is no listing file. -/
theorem labelledListing_not_delivered :
    (Json.parse? (Listing.toJson labelledListing).compact).bind (Listing.ofJson? .asWritten) =
        some labelledListing ∧
      (Listing.decompile .standard labelledListing).map Body.text = .ok "Loop:\nf();\n" ∧
      ¬Request.Delivers { listing? := some "l.json" } .standard [labelledListing]
        (runArguments (onlyFile (Listing.toJson labelledListing).compact) ["l.json"]) := by
  have request : Request.ofArguments? ["l.json"] = some { listing? := some "l.json" } := by decide
  have canonical := Listing.canonical_toJson labelledListing
  have shallow : (Listing.toJson labelledListing).depth ≤ Json.nestingLimit := by decide
  have delivers : Request.Delivers { listing? := some "l.json" } .standard [labelledListing]
      (Request.run (onlyFile (Listing.toJson labelledListing).compact) { listing? := some "l.json" }) ↔
        Listing.legible .asText labelledListing = true :=
    Request.delivers_iff rfl (if_pos rfl) rfl canonical.spelledBy_compact shallow (listingFile?_toJson _)
  refine ⟨?_, by rfl, ?_⟩
  · rw [canonical.parse?_compact shallow, Option.bind_some, Listing.ofJson?_toJson]
    rfl
  · rw [runArguments, request]
    exact fun h => absurd (delivers.1 h) (by decide)

end FlowRecovery
