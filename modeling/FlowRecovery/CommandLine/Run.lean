import FlowRecovery.CommandLine.Request
import FlowRecovery.Format.Body
import FlowRecovery.Format.Listing
import FlowRecovery.Format.Options
import FlowRecovery.Json.Reader
import FlowRecovery.Json.Writer

/-!
# Running requests

A request is run against files, given as a function from names to contents. The options are looked
at before the listings. If a body is rejected, or there is no room for the default values of one,
nothing is printed.
-/

namespace FlowRecovery

/-- Why a run prints nothing. -/
inductive Failure where
  /-- The arguments make no request. -/
  | usage
  /-- The options file cannot be read. -/
  | unreadableConfig (path : String)
  /-- The options file holds no options. -/
  | invalidConfig (path : String)
  /-- The listing file cannot be read. -/
  | unreadableListing (path : String)
  /-- The listing file holds no listings. -/
  | invalidListing (path : String)
  /-- The default values of a body do not fit. -/
  | tooManyParameters
  /-- A listing is not accepted. -/
  | rejected (index : Nat) (cause : InvalidListing)

namespace Failure

/-- The exit code of a failure. -/
def exitCode : Failure → Nat
  | usage => 2
  | tooManyParameters => 101
  | _ => 1

/-- The text of a failure. -/
def message : Failure → String
  | usage =>
      "usage: structurer LISTING [-c|--config FILE] [--raw] [--offsets] [--indent N] " ++
        "[--max-passes N] [--json]"
  | unreadableConfig path => "Failed to read config " ++ path
  | invalidConfig path => "Invalid config " ++ path
  | unreadableListing path => "Failed to read listing " ++ path
  | invalidListing path => "Invalid listing " ++ path
  | tooManyParameters => "capacity overflow"
  | rejected index _ => "Body " ++ Nat.repr index ++ " rejected"

/-- The text of the reason behind a failure. -/
def cause? : Failure → Option String
  | rejected _ cause => some cause.message
  | _ => none

end Failure

namespace Request

/-- The options of a request. -/
def options (read : String → Option String) (r : Request) : Except Failure Options :=
  match r.config? with
  | none => .ok (r.override .standard)
  | some path =>
      match read path with
      | none => .error (.unreadableConfig path)
      | some text =>
          match (Json.parse? text).bind Options.ofJson? with
          | none => .error (.invalidConfig path)
          | some o => .ok (r.override o)

/-- The listings of a request. -/
def listings (read : String → Option String) (r : Request) : Except Failure (List Listing) :=
  match r.listing? with
  | none => .error .usage
  | some path =>
      match read path with
      | none => .error (.unreadableListing path)
      | some text =>
          match (Json.parse? text).bind listingFile? with
          | none => .error (.invalidListing path)
          | some ls => .ok ls

/-- All bodies, if none was rejected; `index` is the number of the first. -/
def accepted (index : Nat) :
    List (Except InvalidListing Body) → Except Failure (List Body)
  | [] => .ok []
  | .error cause :: _ => .error (.rejected index cause)
  | .ok body :: rest => (accepted (index + 1) rest).map (body :: ·)

/-- Bodies one after the other, each under its number. -/
def numbered (index : Nat) : List Body → String
  | [] => ""
  | body :: rest =>
      "// body " ++ Nat.repr index ++ "\n" ++ body.text ++ "\n" ++ numbered (index + 1) rest

/-- What a request prints about bodies. A body that is alone is not numbered. -/
def report (r : Request) (bodies : List Body) : String :=
  if r.json then Json.pretty (.array (bodies.map Body.toJson)) ++ "\n"
  else
    match bodies with
    | [body] => body.text
    | _ => numbered 0 bodies

/-- The bodies of the listings of a request. -/
def bodies (options : Options) (listings : List Listing) : Except Failure (List Body) :=
  match decompileAll? options listings with
  | none => .error .tooManyParameters
  | some results => accepted 0 results

/-- What a request prints. -/
def run (read : String → Option String) (r : Request) : Except Failure String := do
  let options ← r.options read
  let listings ← r.listings read
  return r.report (← bodies options listings)

end Request

/-- What a command line prints. -/
def runArguments (read : String → Option String) (arguments : List String) :
    Except Failure String :=
  match Request.ofArguments? arguments with
  | none => .error .usage
  | some r => r.run read

end FlowRecovery
