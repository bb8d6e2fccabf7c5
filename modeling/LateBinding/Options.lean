import LateBinding.Text.Blank

namespace LateBinding

/-- What can be chosen about a runtime. -/
structure Options where
  /-- The greatest length of the chain of a call site. -/
  siteLimit : Nat := 8
  /-- Look-ups go through the cache of walks. -/
  lookupCache : Bool := true
  /-- The options are reported when the runtime starts. -/
  report : Bool := false
deriving DecidableEq, Inhabited

/-- Why a text is not accepted. -/
inductive OptionsFault where
  | invalidLimit (name value : String) (max : Nat)
  | invalidSwitch (name value : String)
deriving DecidableEq

def OptionsFault.message : OptionsFault → String
  | invalidLimit name value max =>
    s!"{name}: expected an integer in 0..={max}, got '{value}'"
  | invalidSwitch name value => s!"{name}: expected a boolean, got '{value}'"

namespace Options

/-- The greatest limit that a text can choose. -/
def maxSiteLimit : Nat := 64

/-- The variable for the length of chains. -/
def siteLimitVariable : String := "GARNET_DISPATCH_CACHE"

/-- The variable for the cache of walks. -/
def lookupCacheVariable : String := "GARNET_LOOKUP_CACHE"

/-- The variable for the report. -/
def reportVariable : String := "GARNET_OPTIONS_LOG"

/-- The number that a list of decimal digits stands for. -/
def decimal (digits : List Char) : Nat :=
  digits.foldl (fun n c => 10 * n + (c.toNat - '0'.toNat)) 0

/-- The number that at least one digit, and nothing else, stands for. -/
def digits? (cs : List Char) : Option Nat :=
  if !cs.isEmpty && cs.all Char.isDigit then some (decimal cs) else none

/-- The number that digits after an optional plus sign stand for. -/
def natural? : List Char → Option Nat
  | '+' :: cs => digits? cs
  | cs => digits? cs

/-- The limit that a text chooses. -/
def limit? (text : String) : Option Nat :=
  (natural? (Text.trim text.toList)).filter fun n => n ≤ maxSiteLimit

/-- Words for on. -/
def onWords : List String := ["1", "true", "on", "yes"]

/-- Words for off. No word at all is one of them. -/
def offWords : List String := ["", "0", "false", "off", "no"]

/-- The switch that a text chooses. -/
def switch? (text : String) : Option Bool :=
  let word := String.ofList ((Text.trim text.toList).map Char.toLower)
  if word ∈ onWords then some true else if word ∈ offWords then some false else none

/-- The value of a variable: the default if there is no text for it. -/
def read {α : Type} (parse? : String → Option α) (fault : String → OptionsFault) (default : α) :
    Option String → Except OptionsFault α
  | none => .ok default
  | some text =>
    match parse? text with
    | some value => .ok value
    | none => .error (fault text)

/-- The options that the texts for the variables choose. -/
def ofLookup (lookup : String → Option String) : Except OptionsFault Options := do
  let default : Options := {}
  let siteLimit ← read limit? (.invalidLimit siteLimitVariable · maxSiteLimit) default.siteLimit
    (lookup siteLimitVariable)
  let lookupCache ← read switch? (.invalidSwitch lookupCacheVariable) default.lookupCache
    (lookup lookupCacheVariable)
  let report ← read switch? (.invalidSwitch reportVariable) default.report
    (lookup reportVariable)
  return { siteLimit, lookupCache, report }

/-- A limit that a text chooses is in range. -/
theorem le_of_limit? {text : String} {n : Nat} (hlimit : limit? text = some n) :
    n ≤ maxSiteLimit := by
  have hfilter := (Option.filter_eq_some_iff.1 hlimit).2
  simpa using hfilter

/-- Without any text the options are the default ones. -/
theorem ofLookup_none : ofLookup (fun _ => none) = .ok {} := rfl

end Options

end LateBinding
