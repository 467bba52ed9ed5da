/-
GrammarCompiler.Fault — what can be wrong with a grammar.

Causes are data; each has its wording in one place:

  §1 `SyntaxFault`   — the text does not follow the grammar language.
  §2 `GrammarFault`  — the declarations do not make sense together.
  §3 `CapacityFault` — a number does not fit the table format.
  §4 `BuildError`    — a cause with its place in the text, or the list of all
                       conflicts of an automaton.
  §5 `Warning`       — things that look wrong but do not stop a build.
-/
import GrammarCompiler.Text.Quoted
import GrammarCompiler.Text.Source

namespace GrammarCompiler

open Text

/-! ## §1 Syntax -/

/-- Why a text is not a grammar. -/
inductive SyntaxFault where
  | unterminatedComment
  | unterminatedEscape
  | invalidEscape
  | invalidUnicodeEscape
  | unterminatedString
  | invalidStringCharacter
  | unterminatedSet
  | invalidRange
  | missingNameAfterAt
  | unexpectedCharacter (c : Char)
  | unexpectedToken (description : String)
  | repeatedTokens
  | repeatedContext
  | repeatedPrecedence
  | repeatedDialects
  | repeatedSkip
  | inlineParameters
  | missingSpecialization (kind : String)
  | unknownClass (name : String)
  | conflictArity
  | unknownExternal (name : String)
  | nestingTooDeep
deriving DecidableEq, Repr

/-- The wording of a syntax fault. -/
def SyntaxFault.message : SyntaxFault → String
  | unterminatedComment => "Unterminated comment"
  | unterminatedEscape => "Unterminated escape"
  | invalidEscape => "Invalid escape"
  | invalidUnicodeEscape => "Invalid unicode escape"
  | unterminatedString => "Unterminated string literal"
  | invalidStringCharacter => "Invalid character in string"
  | unterminatedSet => "Unterminated character set"
  | invalidRange => "Invalid character range"
  | missingNameAfterAt => "Expected an identifier after '@'"
  | unexpectedCharacter c => s!"Unexpected character '{c}'"
  | unexpectedToken description => s!"Unexpected token {description}"
  | repeatedTokens => "Multiple @tokens declarations"
  | repeatedContext => "Multiple @context declarations"
  | repeatedPrecedence => "Multiple precedence declarations"
  | repeatedDialects => "Multiple @dialects declarations"
  | repeatedSkip => "Multiple top-level skip declarations"
  | inlineParameters => "Inline rules can't have parameters"
  | missingSpecialization kind => s!"Expected a value for @{kind}"
  | unknownClass name => s!"Unrecognized character class '@{name}'"
  | conflictArity => "@conflict takes exactly two tokens"
  | unknownExternal name => s!"Unrecognized external declaration '{name}'"
  | nestingTooDeep => "Expressions are nested too deeply"

/-! ## §2 Declarations -/

/-- Why declarations do not describe a parser. -/
inductive GrammarFault where
  | duplicateRule (name : String)
  | missingTop
  | externalNotToken (kind : String)
  | unknownProp (name : String) (builtinExists : Bool)
  | unknownBuiltinProp (name : String)
  | nodeNameWithSpace (name : String)
  | dialectOnRule
  | dialectNotText
  | unknownDialect (name : String)
  | dynamicPrecedenceOnToken
  | dynamicPrecedenceValue
  | inlineWithValue
  | inlineOnToken
  | groupOnToken
  | propsWithoutName
  | inlineWithProps
  | propParameterUnknown (name : String)
  | propArgumentComplex (shown : String)
  | propArgumentMissing (name : String)
  | propInterpolation (shown : String)
  | notInRule (shown : String)
  | unknownPrecedence (name : String)
  | undefinedRule (name : String)
  | ruleArity (name : String)
  | argumentsForArgument
  | specializedNotToken (kind : String)
  | specializationValues (kind : String)
  | specializationEmpty (kind : String)
  | specializationKinds (value base kind known : String)
  | specializationDialects (value base : String)
  | specializationNames (value base : String)
  | specializationTokens (value base : String)
  | groupRecursive (rule term : String)
  | groupSeveralNodes (rule : String)
  | tokenArity (name : String)
  | tokenRecursion (chain : List String)
  | unknownToken (name : String)
  | eofInToken
  | markerInToken
  | notInToken (shown : String)
  | emptyToken (name : String)
  | cyclicTokenPrecedence (names : List String)
  | tokenInSkip (name : String)
  | inconsistentSkip (trail : String)
  | unknownPropType (name : String)
  | unfinished
deriving DecidableEq, Repr

/-- The wording of a grammar fault. -/
def GrammarFault.message : GrammarFault → String
  | duplicateRule name => s!"Duplicate rule definition for '{name}'"
  | missingTop => "Missing @top declaration"
  | externalNotToken kind =>
    s!"The token expression to '@external {kind}' must resolve to a token"
  | unknownProp name false => s!"Unknown prop name '{name}'"
  | unknownProp name true => s!"Unknown prop name '{name}' (did you mean '@{name}'?)"
  | unknownBuiltinProp name => s!"Unknown built-in prop name '@{name}'"
  | nodeNameWithSpace name => s!"Node names cannot have spaces ('{name}')"
  | dialectOnRule => "Can't specify a dialect on non-token rules"
  | dialectNotText => "The '@dialect' rule prop must hold a plain string value"
  | unknownDialect name => s!"Unknown dialect '{name}'"
  | dynamicPrecedenceOnToken => "Dynamic precedence can only be specified on nonterminals"
  | dynamicPrecedenceValue =>
    "The '@dynamicPrecedence' rule prop must hold an integer between -10 and 10"
  | inlineWithValue => "'@inline' doesn't take a value"
  | inlineOnToken => "Inline can only be specified on nonterminals"
  | groupOnToken => "'@isGroup' can only be specified on nonterminals"
  | propsWithoutName => "Node has properties but no name"
  | inlineWithProps => "Inline nodes can't have props, dynamic precedence, or a dialect"
  | propParameterUnknown name =>
    s!"Property refers to '{name}', but no parameter by that name is in scope"
  | propArgumentComplex shown =>
    s!"Expression '{shown}' can not be used as part of a property value"
  | propArgumentMissing name => s!"Property refers to '{name}', which has no argument"
  | propInterpolation shown => s!"Trying to interpolate expression '{shown}' into a prop"
  | notInRule shown =>
    s!"This type of expression ('{shown}') may not occur in non-token rules"
  | unknownPrecedence name => s!"Reference to unknown precedence: '{name}'"
  | undefinedRule name => s!"Reference to undefined rule '{name}'"
  | ruleArity name => s!"Wrong number of arguments for '{name}'"
  | argumentsForArgument => "Passing arguments to a parameter that already has arguments"
  | specializedNotToken kind => s!"The first argument to '{kind}' must resolve to a token"
  | specializationValues kind =>
    s!"The second argument to '{kind}' must be a literal or choice of literals"
  | specializationEmpty kind => s!"The second argument to '{kind}' must not be empty"
  | specializationKinds value base kind known =>
    s!"Conflicting specialization types for {quoted value} of {base} ({kind} vs {known})"
  | specializationDialects value base =>
    s!"Conflicting dialects for specialization {quoted value} of {base}"
  | specializationNames value base =>
    s!"Conflicting names for specialization {quoted value} of {base}"
  | specializationTokens value base =>
    s!"Conflicting specialization tokens for {quoted value} of {base}"
  | groupRecursive rule term =>
    s!"Rule '{rule}' cannot define a group because it contains a non-named recursive rule " ++
      s!"('{term}')"
  | groupSeveralNodes rule =>
    s!"Rule '{rule}' cannot define a group because some choices produce multiple named nodes"
  | tokenArity name => s!"Incorrect number of arguments for token '{name}'"
  | tokenRecursion chain =>
    "Invalid (non-tail) recursion in token rules: " ++ " -> ".intercalate chain
  | unknownToken name => s!"Reference to token rule '{name}', which isn't found"
  | eofInToken => "@eof can't be used in token rules"
  | markerInToken => "Conflict marker in token expression"
  | notInToken shown => s!"This type of expression ('{shown}') may not occur in token rules"
  | emptyToken name => s!"Grammar contains zero-length tokens (in '{name}')"
  | cyclicTokenPrecedence names =>
    "Cyclic token precedence relation between " ++ ", ".intercalate names
  | tokenInSkip name => s!"Use of token {name} conflicts with skip rule"
  | inconsistentSkip trail => s!"Inconsistent skip sets after {trail}"
  | unknownPropType name => s!"No known prop type for {name}"
  | unfinished => "The construction did not come to an end"

/-! ## §3 Capacity -/

/-- Why a number does not fit the table format. -/
inductive CapacityFault where
  | encodedNumber (value : Nat)
  | tableValue (value : Nat)
  | terms
  | gotoTable
  | states (count : Nat)
  | tokenGroups (count : Nat)
  | tokenizer
deriving DecidableEq, Repr

/-- The wording of a capacity fault. -/
def CapacityFault.message : CapacityFault → String
  | encodedNumber value => s!"Trying to encode a number that's too big: {value}"
  | tableValue value => s!"Table value {value} doesn't fit in 16 bits"
  | terms => "Too many terms"
  | gotoTable => "Goto table too large"
  | states count => s!"Too many parse states ({count})"
  | tokenGroups count =>
    s!"Too many different token groups ({count}) to represent them as a 16-bit bitfield"
  | tokenizer => "Tokenizer tables too big to represent with 16-bit offsets."

/-! ## §4 Errors -/

/-- Why a build stopped. -/
inductive BuildError where
  | text (fault : SyntaxFault) (location : Location)
  | grammar (fault : GrammarFault) (location : Option Location)
  | conflicts (descriptions : List String)
  | tokenConflicts (descriptions : List String)
  | capacity (fault : CapacityFault)
deriving DecidableEq, Repr

/-- The message for an error. A list of conflicts is separated by blank
lines. -/
def BuildError.message : BuildError → String
  | text fault location => located fault.message (some location)
  | grammar fault location => located fault.message location
  | conflicts descriptions => "\n\n".intercalate descriptions
  | tokenConflicts descriptions => "\n\n".intercalate descriptions
  | capacity fault => fault.message

/-! ## §5 Warnings -/

/-- What a build warns about. -/
inductive Warning where
  | unusedRule (name : String)
  | exportedParameters
  | exportedInline
  | manyChoices (name : String) (count : Nat)
  | groupIsNode (group : String)
  | groupsOverlap (group other : String)
  | precedenceOfUnknown (shown : String)
  | conflictOfUnknown (shown : String)
deriving DecidableEq, Repr

/-- The wording of a warning. -/
def Warning.message : Warning → String
  | unusedRule name => s!"Unused rule '{name}'"
  | exportedParameters => "Can't export parameterized rules"
  | exportedInline => "Can't export inline rule"
  | manyChoices name count =>
    s!"Rule {name} is generating a lot ({count}) of choices.\n  Consider splitting it up or " ++
      "reducing the amount of ? or | operator uses."
  | groupIsNode group => s!"Group name '{group}' conflicts with a node of the same name"
  | groupsOverlap group other =>
    s!"Groups '{group}' and '{other}' overlap without one being a superset of the other"
  | precedenceOfUnknown shown => s!"Precedence specified for unknown token {shown}"
  | conflictOfUnknown shown => s!"Conflict specified for unknown token {shown}"

end GrammarCompiler
