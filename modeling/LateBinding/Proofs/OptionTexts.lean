import Mathlib.Data.List.Induction
import Mathlib.Data.Nat.Digits.Defs
import Mathlib.Logic.Relation
import LateBinding.Options
import LateBinding.Proofs.Text.Blank

namespace LateBinding

namespace Options

/-- What a digit is worth. -/
def digitValue (c : Char) : Nat := c.toNat - '0'.toNat

/-- The characters are decimal digits, and there are some. -/
structure AreDigits (cs : List Char) : Prop where
  ne_nil : cs ≠ []
  isDigit : ∀ c ∈ cs, c.isDigit = true

/-- Digits, after a plus sign or without one, and the number that they stand for. -/
inductive Numeral : List Char → Nat → Prop where
  | unsigned {digits : List Char} (hdigits : AreDigits digits) :
    Numeral digits (Nat.ofDigits 10 (digits.reverse.map digitValue))
  | signed {digits : List Char} (hdigits : AreDigits digits) :
    Numeral ('+' :: digits) (Nat.ofDigits 10 (digits.reverse.map digitValue))

/-- A text that chooses a limit. -/
def LimitText (text : String) (n : Nat) : Prop :=
  ∃ core, Text.HasCore text.toList core ∧ Numeral core n ∧ n ≤ maxSiteLimit

/-- The words for a choice. -/
def words : Bool → List String
  | true => onWords
  | false => offWords

/-- A text that chooses a switch. -/
def SwitchText (text : String) (b : Bool) : Prop :=
  ∃ core, Text.HasCore text.toList core ∧ ∃ word ∈ words b, core.map Char.toLower = word.toList

/-- What is chosen by the text for a variable, or by default. -/
def Chooses {α : Type} (chosenBy : String → α → Prop) (default : α) : Option String → α → Prop
  | none, v => v = default
  | some text, v => chosenBy text v

/-- The text for a variable chooses nothing. -/
def Offends {α : Type} (chosenBy : String → α → Prop) (text? : Option String) (text : String) : Prop :=
  text? = some text ∧ ∀ v, ¬ chosenBy text v

variable {cs : List Char} {n : Nat} {b : Bool} {text text' : String} {α : Type}

theorem decimal_eq (digits : List Char) :
    decimal digits = Nat.ofDigits 10 (digits.reverse.map digitValue) := by
  induction digits using List.reverseRecOn with
  | nil => rfl
  | append_singleton digits c ih =>
    have hstep : decimal (digits ++ [c]) = 10 * decimal digits + digitValue c := List.foldl_append
    rw [hstep, ih, List.reverse_append, List.map_append, List.reverse_singleton, List.map_singleton,
      List.singleton_append, Nat.ofDigits_cons, Nat.add_comm]

theorem digits?_eq_some_iff :
    digits? cs = some n ↔ AreDigits cs ∧ Nat.ofDigits 10 (cs.reverse.map digitValue) = n := by
  have hdigits : (!cs.isEmpty && cs.all Char.isDigit) = true ↔ AreDigits cs := by
    rw [Bool.and_eq_true, List.all_eq_true]
    simp only [Bool.not_eq_true', List.isEmpty_eq_false_iff]
    exact ⟨fun h => ⟨h.1, h.2⟩, fun h => ⟨h.ne_nil, h.isDigit⟩⟩
  rw [digits?, decimal_eq]
  split
  · rename_i hyes
    simp [hdigits.mp hyes]
  · rename_i hno
    simp [mt hdigits.mpr hno]

theorem natural?_eq_some_iff : natural? cs = some n ↔ Numeral cs n := by
  constructor
  · intro hnatural
    unfold natural? at hnatural
    split at hnatural
    · obtain ⟨hdigits, rfl⟩ := digits?_eq_some_iff.mp hnatural
      exact .signed hdigits
    · obtain ⟨hdigits, rfl⟩ := digits?_eq_some_iff.mp hnatural
      exact .unsigned hdigits
  · rintro (hdigits | hdigits)
    · unfold natural?
      split
      · -- A plus sign is no digit.
        cases hdigits.isDigit '+' List.mem_cons_self
      · exact digits?_eq_some_iff.mpr ⟨hdigits, rfl⟩
    · exact digits?_eq_some_iff.mpr ⟨hdigits, rfl⟩

/-- A text chooses a limit exactly if it is in the grammar. -/
theorem limit?_eq_some_iff : limit? text = some n ↔ LimitText text n := by
  rw [limit?, Option.filter_eq_some_iff, natural?_eq_some_iff, decide_eq_true_eq]
  constructor
  · rintro ⟨hnumeral, hmax⟩
    exact ⟨_, Text.hasCore_trim _, hnumeral, hmax⟩
  · rintro ⟨core, hcore, hnumeral, hmax⟩
    rw [hcore.trim_eq]
    exact ⟨hnumeral, hmax⟩

/-- No word is both for on and for off. -/
theorem not_mem_offWords {word : String} (hon : word ∈ onWords) : word ∉ offWords := by
  revert word
  decide

theorem switch?_eq_some_iff : switch? text = some b ↔ SwitchText text b := by
  have hword : SwitchText text b ↔
      String.ofList ((Text.trim text.toList).map Char.toLower) ∈ words b := by
    constructor
    · rintro ⟨core, hcore, word, hword, hlower⟩
      rwa [hcore.trim_eq, hlower, String.ofList_toList]
    · intro hmem
      exact ⟨_, Text.hasCore_trim _, _, hmem, String.toList_ofList.symm⟩
  rw [hword, switch?]
  generalize String.ofList ((Text.trim text.toList).map Char.toLower) = word
  by_cases hon : word ∈ onWords
  · have hnot := not_mem_offWords hon
    cases b <;> simp [words, hon, hnot]
  · by_cases hoff : word ∈ offWords
    · cases b <;> simp [words, hon, hoff]
    · cases b <;> simp [words, hon, hoff]

section

variable {parse? : String → Option α} {chosenBy : String → α → Prop} {fault : String → OptionsFault}
  {default v : α} {text? : Option String} {f : OptionsFault}
  (hparse : ∀ text v, parse? text = some v ↔ chosenBy text v)

include hparse

theorem read_eq_ok_iff : read parse? fault default text? = .ok v ↔ Chooses chosenBy default text? v := by
  cases text? with
  | none => simp [read, Chooses, eq_comm]
  | some text =>
    rw [Chooses, ← hparse, read]
    cases parse? text <;> simp

theorem read_eq_error_iff :
    read parse? fault default text? = .error f ↔
      ∃ text, Offends chosenBy text? text ∧ f = fault text := by
  cases text? with
  | none => simp [read, Offends]
  | some text =>
    simp only [Offends, ← hparse, read]
    cases hparsed : parse? text <;> simp [hparsed, eq_comm]

/-- A value is read unless the text chooses nothing. -/
theorem exists_read_eq_ok_iff :
    (∃ v, read parse? fault default text? = .ok v) ↔ ¬ ∃ text, Offends chosenBy text? text := by
  cases hread : read parse? fault default text? with
  | ok v =>
    refine iff_of_true ⟨v, rfl⟩ ?_
    rintro ⟨text, htext⟩
    rw [(read_eq_error_iff hparse).mpr ⟨text, htext, rfl⟩] at hread
    cases hread
  | error f =>
    obtain ⟨text, htext, -⟩ := (read_eq_error_iff hparse).mp hread
    exact iff_of_false (by simp) fun hnone => hnone ⟨text, htext⟩

end

/-- The limit that is read from its variable. -/
def readLimit (lookup : String → Option String) : Except OptionsFault Nat :=
  read limit? (.invalidLimit siteLimitVariable · maxSiteLimit) ({} : Options).siteLimit
    (lookup siteLimitVariable)

/-- The switch that is read from a variable. -/
def readSwitch (lookup : String → Option String) (name : String) (default : Bool) :
    Except OptionsFault Bool :=
  read switch? (.invalidSwitch name) default (lookup name)

variable {lookup lookup' : String → Option String} {o : Options} {f : OptionsFault} {name : String}
  {default : Bool}

theorem readLimit_eq_ok_iff :
    readLimit lookup = .ok n ↔
      Chooses LimitText ({} : Options).siteLimit (lookup siteLimitVariable) n :=
  read_eq_ok_iff fun _ _ => limit?_eq_some_iff

theorem readLimit_eq_error_iff :
    readLimit lookup = .error f ↔ ∃ text, Offends LimitText (lookup siteLimitVariable) text ∧
      f = .invalidLimit siteLimitVariable text maxSiteLimit :=
  read_eq_error_iff fun _ _ => limit?_eq_some_iff

theorem exists_readLimit_iff :
    (∃ n, readLimit lookup = .ok n) ↔ ¬ ∃ text, Offends LimitText (lookup siteLimitVariable) text :=
  exists_read_eq_ok_iff fun _ _ => limit?_eq_some_iff

theorem readSwitch_eq_ok_iff :
    readSwitch lookup name default = .ok b ↔ Chooses SwitchText default (lookup name) b :=
  read_eq_ok_iff fun _ _ => switch?_eq_some_iff

theorem readSwitch_eq_error_iff :
    readSwitch lookup name default = .error f ↔
      ∃ text, Offends SwitchText (lookup name) text ∧ f = .invalidSwitch name text :=
  read_eq_error_iff fun _ _ => switch?_eq_some_iff

theorem exists_readSwitch_iff :
    (∃ b, readSwitch lookup name default = .ok b) ↔
      ¬ ∃ text, Offends SwitchText (lookup name) text :=
  exists_read_eq_ok_iff fun _ _ => switch?_eq_some_iff

/-- The variables are read one after the other. -/
theorem ofLookup_eq (lookup : String → Option String) :
    ofLookup lookup = (do
      let siteLimit ← readLimit lookup
      let lookupCache ← readSwitch lookup lookupCacheVariable ({} : Options).lookupCache
      let report ← readSwitch lookup reportVariable ({} : Options).report
      return { siteLimit, lookupCache, report }) := rfl

theorem ofLookup_eq_ok_iff :
    ofLookup lookup = .ok o ↔
      readLimit lookup = .ok o.siteLimit ∧
      readSwitch lookup lookupCacheVariable ({} : Options).lookupCache = .ok o.lookupCache ∧
      readSwitch lookup reportVariable ({} : Options).report = .ok o.report := by
  rw [ofLookup_eq]
  cases readLimit lookup with
  | error f => simp [bind, Except.bind]
  | ok siteLimit =>
    cases readSwitch lookup lookupCacheVariable ({} : Options).lookupCache with
    | error f => simp [bind, Except.bind]
    | ok lookupCache =>
      cases readSwitch lookup reportVariable ({} : Options).report with
      | error f => simp [bind, Except.bind]
      | ok report =>
        cases o
        simp [bind, Except.bind, pure, Except.pure]

/-- The first variable whose text chooses nothing is the one that is reported. -/
theorem ofLookup_eq_error_iff :
    ofLookup lookup = .error f ↔
      readLimit lookup = .error f ∨
      (∃ n, readLimit lookup = .ok n) ∧
        (readSwitch lookup lookupCacheVariable ({} : Options).lookupCache = .error f ∨
        (∃ b, readSwitch lookup lookupCacheVariable ({} : Options).lookupCache = .ok b) ∧
          readSwitch lookup reportVariable ({} : Options).report = .error f) := by
  rw [ofLookup_eq]
  cases readLimit lookup with
  | error f => simp [bind, Except.bind]
  | ok siteLimit =>
    cases readSwitch lookup lookupCacheVariable ({} : Options).lookupCache with
    | error f => simp [bind, Except.bind]
    | ok lookupCache =>
      cases readSwitch lookup reportVariable ({} : Options).report with
      | error f => simp [bind, Except.bind]
      | ok report => simp [bind, Except.bind, pure, Except.pure]

/-- The first fault in the texts for the variables. -/
inductive FirstFault (lookup : String → Option String) : OptionsFault → Prop where
  | siteLimit {text : String} (hlimit : Offends LimitText (lookup siteLimitVariable) text) :
    FirstFault lookup (.invalidLimit siteLimitVariable text maxSiteLimit)
  | lookupCache {text : String}
    (hlimit : ¬ ∃ earlier, Offends LimitText (lookup siteLimitVariable) earlier)
    (hcache : Offends SwitchText (lookup lookupCacheVariable) text) :
    FirstFault lookup (.invalidSwitch lookupCacheVariable text)
  | report {text : String}
    (hlimit : ¬ ∃ earlier, Offends LimitText (lookup siteLimitVariable) earlier)
    (hcache : ¬ ∃ earlier, Offends SwitchText (lookup lookupCacheVariable) earlier)
    (hreport : Offends SwitchText (lookup reportVariable) text) :
    FirstFault lookup (.invalidSwitch reportVariable text)

theorem ofLookup_eq_error_iff_firstFault : ofLookup lookup = .error f ↔ FirstFault lookup f := by
  rw [ofLookup_eq_error_iff, exists_readLimit_iff, exists_readSwitch_iff,
    readLimit_eq_error_iff, readSwitch_eq_error_iff, readSwitch_eq_error_iff]
  constructor
  · rintro (⟨text, hlimit, rfl⟩ | ⟨hlimit, ⟨text, hcache, rfl⟩ | ⟨hcache, text, hreport, rfl⟩⟩)
    · exact .siteLimit hlimit
    · exact .lookupCache hlimit hcache
    · exact .report hlimit hcache hreport
  · rintro (hlimit | ⟨hlimit, hcache⟩ | ⟨hlimit, hcache, hreport⟩)
    · exact .inl ⟨_, hlimit, rfl⟩
    · exact .inr ⟨hlimit, .inl ⟨_, hcache, rfl⟩⟩
    · exact .inr ⟨hlimit, .inr ⟨hcache, _, hreport, rfl⟩⟩

/-- The second text is the first one with more white space around it. -/
def PadsBlanks (text text' : String) : Prop :=
  ∃ before after, Text.AllBlank before ∧ Text.AllBlank after ∧
    text'.toList = before ++ text.toList ++ after

/-- The second text is the first one, a numeral with white space around it, with more zeros in front of
the digits. -/
def PadsZeros (text text' : String) : Prop :=
  ∃ before sign zeros digits after, Text.AllBlank before ∧ Text.AllBlank after ∧
    (sign = [] ∨ sign = ['+']) ∧ (∀ c ∈ zeros, c = '0') ∧ AreDigits digits ∧
    text.toList = before ++ (sign ++ digits) ++ after ∧
    text'.toList = before ++ (sign ++ (zeros ++ digits)) ++ after

/-- The second texts for the variables are the first ones with more white space around them, and the one
for the limit with more zeros as well. -/
structure Pads (lookup lookup' : String → Option String) : Prop where
  siteLimit : Option.Rel (Relation.ReflTransGen fun text text' =>
    PadsBlanks text text' ∨ PadsZeros text text') (lookup siteLimitVariable)
      (lookup' siteLimitVariable)
  lookupCache : Option.Rel PadsBlanks (lookup lookupCacheVariable) (lookup' lookupCacheVariable)
  report : Option.Rel PadsBlanks (lookup reportVariable) (lookup' reportVariable)

theorem PadsBlanks.trim_eq (hpads : PadsBlanks text text') :
    Text.trim text'.toList = Text.trim text.toList := by
  obtain ⟨before, after, hbefore, hafter, htext'⟩ := hpads
  rw [htext', Text.trim_surrounded hbefore hafter]

theorem isBlank_of_isDigit {c : Char} (hc : c.isDigit = true) : Text.isBlank c = false := by
  simp only [Char.isDigit, Bool.and_eq_true, decide_eq_true_eq, ge_iff_le, UInt32.le_iff_toNat_le]
    at hc
  obtain ⟨hlow, hhigh⟩ := hc
  change 48 ≤ c.toNat at hlow
  change c.toNat ≤ 57 at hhigh
  simp only [Text.isBlank, Text.blankRanges, List.any_cons, List.any_nil, Bool.or_eq_false_iff,
    Bool.and_eq_false_iff, decide_eq_false_iff_not, and_true]
  omega

theorem Numeral.not_blank (hcs : Numeral cs n) : ∀ c ∈ cs, Text.isBlank c = false := by
  rintro c hc
  cases hcs with
  | unsigned hdigits => exact isBlank_of_isDigit (hdigits.isDigit c hc)
  | signed hdigits =>
    rcases List.mem_cons.mp hc with rfl | hc
    · rfl
    · exact isBlank_of_isDigit (hdigits.isDigit c hc)

/-- A numeral with white space around it has no other core. -/
theorem Numeral.trim_eq {before after : List Char} (hcs : Numeral cs n)
    (hbefore : Text.AllBlank before) (hafter : Text.AllBlank after) :
    Text.trim (before ++ cs ++ after) = cs :=
  Text.HasCore.trim_eq <| .intro hbefore hafter
    (fun c hc => hcs.not_blank c (List.mem_of_mem_head? hc))
    (fun c hc => hcs.not_blank c (List.mem_of_mem_getLast? hc))

theorem decimal_zeros_append {zeros : List Char} (hzeros : ∀ c ∈ zeros, c = '0') (digits : List Char) :
    decimal (zeros ++ digits) = decimal digits := by
  induction zeros with
  | nil => rfl
  | cons c zeros ih =>
    obtain rfl := hzeros c List.mem_cons_self
    exact ih fun c hc => hzeros c (List.mem_cons_of_mem _ hc)

theorem AreDigits.numeral {sign digits : List Char} (hdigits : AreDigits digits)
    (hsign : sign = [] ∨ sign = ['+']) : Numeral (sign ++ digits) (decimal digits) := by
  rw [decimal_eq]
  rcases hsign with rfl | rfl
  · exact .unsigned hdigits
  · exact .signed hdigits

theorem AreDigits.zeros_append {zeros digits : List Char} (hdigits : AreDigits digits)
    (hzeros : ∀ c ∈ zeros, c = '0') : AreDigits (zeros ++ digits) where
  ne_nil := by simp [hdigits.ne_nil]
  isDigit c hc := by
    rcases List.mem_append.mp hc with hc | hc
    · rw [hzeros c hc]
      rfl
    · exact hdigits.isDigit c hc

/-- Zeros in front do not change the number. -/
theorem PadsZeros.limit?_eq (hpads : PadsZeros text text') : limit? text' = limit? text := by
  obtain ⟨before, sign, zeros, digits, after, hbefore, hafter, hsign, hzeros, hdigits, htext,
    htext'⟩ := hpads
  have hplain := hdigits.numeral hsign
  have hpadded := (hdigits.zeros_append hzeros).numeral hsign
  rw [decimal_zeros_append hzeros] at hpadded
  rw [limit?, limit?, htext, htext', hplain.trim_eq hbefore hafter, hpadded.trim_eq hbefore hafter,
    natural?_eq_some_iff.mpr hplain, natural?_eq_some_iff.mpr hpadded]

theorem limit?_eq_of_pads
    (hpads : Relation.ReflTransGen (fun text text' => PadsBlanks text text' ∨ PadsZeros text text')
      text text') : limit? text' = limit? text := by
  induction hpads with
  | refl => rfl
  | tail _ hstep ih =>
    rw [← ih]
    rcases hstep with hblanks | hzeros
    · rw [limit?, hblanks.trim_eq, limit?]
    · exact hzeros.limit?_eq

/-- Padding does not change what a text chooses. -/
theorem chooses_of_rel {chosenBy : String → α → Prop} {R : String → String → Prop} {default v : α}
    {text? text'? : Option String} (hrel : Option.Rel R text? text'?)
    (hchosen : ∀ text text', R text text' → chosenBy text v → chosenBy text' v)
    (hchooses : Chooses chosenBy default text? v) : Chooses chosenBy default text'? v := by
  cases hrel with
  | none => exact hchooses
  | some hpads => exact hchosen _ _ hpads hchooses

theorem ofLookup_eq_ok_of_pads (hpads : Pads lookup lookup') (haccepted : ofLookup lookup = .ok o) :
    ofLookup lookup' = .ok o := by
  have hswitch (b : Bool) (text text' : String) (hblanks : PadsBlanks text text')
      (htext : SwitchText text b) : SwitchText text' b := by
    rw [← switch?_eq_some_iff, switch?] at htext ⊢
    rwa [hblanks.trim_eq]
  rw [ofLookup_eq_ok_iff, readLimit_eq_ok_iff, readSwitch_eq_ok_iff, readSwitch_eq_ok_iff]
    at haccepted ⊢
  obtain ⟨hlimit, hcache, hreport⟩ := haccepted
  refine ⟨chooses_of_rel hpads.siteLimit (fun text text' htexts htext => ?_) hlimit,
    chooses_of_rel hpads.lookupCache (hswitch _) hcache,
    chooses_of_rel hpads.report (hswitch _) hreport⟩
  rw [← limit?_eq_some_iff] at htext ⊢
  rw [limit?_eq_of_pads htexts, htext]

/-- Options are read from any texts for the variables exactly if every text that is there is in the
grammar, and then they are what the texts choose, and the default where there is no text. Otherwise the
first text that is not in the grammar is reported as it stands, with its variable. White space around a
text, and zeros in front of a limit, change nothing about options that were read. -/
theorem ofLookup_grammar (lookup : String → Option String) :
    (∀ o, ofLookup lookup = .ok o ↔
      Chooses LimitText 8 (lookup "GARNET_DISPATCH_CACHE") o.siteLimit ∧
      Chooses SwitchText true (lookup "GARNET_LOOKUP_CACHE") o.lookupCache ∧
      Chooses SwitchText false (lookup "GARNET_OPTIONS_LOG") o.report) ∧
    (∀ f, ofLookup lookup = .error f ↔ FirstFault lookup f) ∧
    ∀ lookup', Pads lookup lookup' → ∀ o, ofLookup lookup = .ok o → ofLookup lookup' = .ok o := by
  refine ⟨fun o => ?_, fun f => ofLookup_eq_error_iff_firstFault,
    fun lookup' hpads o haccepted => ofLookup_eq_ok_of_pads hpads haccepted⟩
  rw [ofLookup_eq_ok_iff, readLimit_eq_ok_iff, readSwitch_eq_ok_iff, readSwitch_eq_ok_iff]
  rfl

end Options

end LateBinding
