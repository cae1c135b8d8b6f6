/-!
# What can go wrong with a rule

A rule line can be unreadable (`LineFault`, decided by the line alone), and a rule can be
inapplicable (`RuleFault`, which shows only when it is applied to a word). A `CascadeFault` is
either of them with the number of the line, or the absence of any rules. Each cause has its wording
in `message`.
-/

set_option autoImplicit false

namespace SoundChange

/-- Why a rule line cannot be read. -/
inductive LineFault where
  /-- The line ends with an escape character. -/
  | danglingEscape
  /-- The line has more than five fields. -/
  | tooManyFields
  /-- A comma in the environment or the exception. -/
  | commaInCondition
  /-- Nothing between two commas, or before the first or after the last. -/
  | emptyMember
  /-- A mark or a category among the members of an inline category. -/
  | memberNotText
  /-- A bar outside the environment and the exception. -/
  | barOutsideCondition
  /-- Nothing on one side of a bar. -/
  | emptyAlternative
  /-- A locus outside the environment and the exception. -/
  | locusOutsideCondition
  /-- A second locus in one alternative. -/
  | secondLocus
  deriving DecidableEq, Repr

/-- The wording of a line fault. -/
def LineFault.message : LineFault → String
  | danglingEscape => "Escape character at end of line"
  | tooManyFields => "Too many segments"
  | commaInCondition => "Comma inside environment or exception"
  | emptyMember => "Empty temporary category member"
  | memberNotText => "Temporary category may only contain literal characters"
  | barOutsideCondition => "Pipe outside environment or exception"
  | emptyAlternative => "Empty condition alternative"
  | locusOutsideCondition => "Underscore outside environment or exception"
  | secondLocus => "Multiple underscores in one condition"

/-- Why a rule cannot be applied to a word. -/
inductive RuleFault where
  /-- The rule refers to a category that is not defined. -/
  | unknownCategory (letter : Char)
  /-- A word edge in the middle of an alternative. -/
  | misplacedEdge
  /-- More than one word edge in an alternative about the whole word. -/
  | tooManyEdges
  /-- A locus in an alternative about the whole word. -/
  | locusInWordCondition
  /-- The target has a shape that no target has. -/
  | unfitTarget
  /-- The change has a shape that does not go with the target. -/
  | unfitChange
  /-- One of change and else-change lists members and the other is a text. -/
  | elseChangeUnlikeChange
  /-- An affix is added to something else than a bare word edge. -/
  | affixOnMoreThanEdge
  /-- The target has characters both before and after the word edge. -/
  | textOnBothSides
  deriving DecidableEq, Repr

/-- The wording of a rule fault. -/
def RuleFault.message : RuleFault → String
  | unknownCategory letter => s!"Unknown category '{letter}'"
  | misplacedEdge => "Hashtag must be the first or last token of a condition"
  | tooManyEdges => "Too many hashtags in one condition"
  | locusInWordCondition => "Underscore in a word-level condition"
  | unfitTarget => "Invalid target"
  | unfitChange => "Change does not fit the target"
  | elseChangeUnlikeChange => "Else-change must have the same shape as the change"
  | affixOnMoreThanEdge => "Affix rule target must be a single hashtag"
  | textOnBothSides => "Target has characters on both sides of the hashtag"

/-- Why a rule text gives no cascade, or a cascade no word. Lines count from one. -/
inductive CascadeFault where
  /-- The line cannot be read. -/
  | unreadable (line : Nat) (cause : LineFault)
  /-- The rule on the line cannot be applied. -/
  | inapplicable (line : Nat) (cause : RuleFault)
  /-- There are no rules yet. -/
  | noRules
  deriving DecidableEq, Repr

namespace CascadeFault

/-- The line that the fault is about. -/
def line? : CascadeFault → Option Nat
  | unreadable line _ | inapplicable line _ => some line
  | noRules => none

/-- The wording of the cause, without the line. -/
def causeMessage? : CascadeFault → Option String
  | unreadable _ cause => some cause.message
  | inapplicable _ cause => some cause.message
  | noRules => none

/-- The wording of the fault. -/
def message : CascadeFault → String
  | unreadable line cause => s!"{cause.message} on line {line}"
  | inapplicable line cause => s!"{cause.message} on line {line}"
  | noRules => "Rules must be set before applying them"

/-- The same fault on a line `n` further down. -/
def shift (n : Nat) : CascadeFault → CascadeFault
  | unreadable line cause => unreadable (line + n) cause
  | inapplicable line cause => inapplicable (line + n) cause
  | noRules => noRules

end CascadeFault

end SoundChange
