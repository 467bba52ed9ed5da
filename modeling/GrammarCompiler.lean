import GrammarCompiler.Automaton.Closure
import GrammarCompiler.Automaton.Collapse
import GrammarCompiler.Automaton.Conflict
import GrammarCompiler.Automaton.Forced
import GrammarCompiler.Automaton.Full
import GrammarCompiler.Automaton.Identical
import GrammarCompiler.Automaton.Item
import GrammarCompiler.Automaton.Run
import GrammarCompiler.Automaton.State
import GrammarCompiler.CharSet
import GrammarCompiler.Compile
import GrammarCompiler.Declaration.Basic
import GrammarCompiler.Declaration.Expr
import GrammarCompiler.Declaration.Lexer
import GrammarCompiler.Declaration.Parser
import GrammarCompiler.Declaration.Printer
import GrammarCompiler.Draft.Basic
import GrammarCompiler.Draft.Declarations
import GrammarCompiler.Draft.Delimiter
import GrammarCompiler.Draft.Groups
import GrammarCompiler.Draft.Node
import GrammarCompiler.Draft.Rules
import GrammarCompiler.Draft.Sequence
import GrammarCompiler.Draft.Specialize
import GrammarCompiler.Draft.Substitute
import GrammarCompiler.Draft.Token
import GrammarCompiler.Fault
import GrammarCompiler.Grammar.Basic
import GrammarCompiler.Grammar.First
import GrammarCompiler.Grammar.Forest
import GrammarCompiler.Grammar.Inline
import GrammarCompiler.Grammar.Marks
import GrammarCompiler.Grammar.Merge
import GrammarCompiler.Grammar.Numbering
import GrammarCompiler.Grammar.PackedSet
import GrammarCompiler.Grammar.Rule
import GrammarCompiler.Grammar.Skip
import GrammarCompiler.Grammar.Term
import GrammarCompiler.Grammar.TermSet
import GrammarCompiler.Journal
import GrammarCompiler.Module.Parser
import GrammarCompiler.Module.Script
import GrammarCompiler.NameMap
import GrammarCompiler.Printable
import GrammarCompiler.Proofs.Accounting
import GrammarCompiler.Proofs.Advancing
import GrammarCompiler.Proofs.Agreeing
import GrammarCompiler.Proofs.Allowing
import GrammarCompiler.Proofs.Ambiguity
import GrammarCompiler.Proofs.Associating
import GrammarCompiler.Proofs.Banding
import GrammarCompiler.Proofs.Beginning
import GrammarCompiler.Proofs.Borrowing
import GrammarCompiler.Proofs.Building
import GrammarCompiler.Proofs.Characters
import GrammarCompiler.Proofs.Classifying
import GrammarCompiler.Proofs.Closure
import GrammarCompiler.Proofs.Clustering
import GrammarCompiler.Proofs.Collapsing
import GrammarCompiler.Proofs.Collecting
import GrammarCompiler.Proofs.Comparing
import GrammarCompiler.Proofs.Completeness
import GrammarCompiler.Proofs.Confining
import GrammarCompiler.Proofs.Construction
import GrammarCompiler.Proofs.Containing
import GrammarCompiler.Proofs.Counting
import GrammarCompiler.Proofs.Creating
import GrammarCompiler.Proofs.Deciding
import GrammarCompiler.Proofs.Decoding
import GrammarCompiler.Proofs.DefaultReductions
import GrammarCompiler.Proofs.Derivation
import GrammarCompiler.Proofs.Determinacy
import GrammarCompiler.Proofs.Distinguishing
import GrammarCompiler.Proofs.Drafting
import GrammarCompiler.Proofs.Enabling
import GrammarCompiler.Proofs.Encoding
import GrammarCompiler.Proofs.Ending
import GrammarCompiler.Proofs.Enumerating
import GrammarCompiler.Proofs.Expanding
import GrammarCompiler.Proofs.Fitting
import GrammarCompiler.Proofs.Flattening
import GrammarCompiler.Proofs.Following
import GrammarCompiler.Proofs.Forcing
import GrammarCompiler.Proofs.Framing
import GrammarCompiler.Proofs.Gotos
import GrammarCompiler.Proofs.Governing
import GrammarCompiler.Proofs.Grouping
import GrammarCompiler.Proofs.Growth
import GrammarCompiler.Proofs.Inlining
import GrammarCompiler.Proofs.Instantiating
import GrammarCompiler.Proofs.Interchanging
import GrammarCompiler.Proofs.Joining
import GrammarCompiler.Proofs.Language
import GrammarCompiler.Proofs.Laying
import GrammarCompiler.Proofs.Lexing
import GrammarCompiler.Proofs.Lists
import GrammarCompiler.Proofs.Lookahead
import GrammarCompiler.Proofs.Looping
import GrammarCompiler.Proofs.Marking
import GrammarCompiler.Proofs.Masking
import GrammarCompiler.Proofs.Meaning
import GrammarCompiler.Proofs.Members
import GrammarCompiler.Proofs.Merging
import GrammarCompiler.Proofs.Minimizing
import GrammarCompiler.Proofs.Multiplying
import GrammarCompiler.Proofs.Naming
import GrammarCompiler.Proofs.Nesting
import GrammarCompiler.Proofs.Normalizing
import GrammarCompiler.Proofs.Numbering
import GrammarCompiler.Proofs.Offsets
import GrammarCompiler.Proofs.Operating
import GrammarCompiler.Proofs.Operations
import GrammarCompiler.Proofs.Operators
import GrammarCompiler.Proofs.Ordering
import GrammarCompiler.Proofs.Overlapping
import GrammarCompiler.Proofs.Packing
import GrammarCompiler.Proofs.Pairing
import GrammarCompiler.Proofs.Parsing
import GrammarCompiler.Proofs.Paths
import GrammarCompiler.Proofs.Placing
import GrammarCompiler.Proofs.Precedence
import GrammarCompiler.Proofs.Printing
import GrammarCompiler.Proofs.Prospect
import GrammarCompiler.Proofs.Quoting
import GrammarCompiler.Proofs.Ranging
import GrammarCompiler.Proofs.Ranking
import GrammarCompiler.Proofs.Reading
import GrammarCompiler.Proofs.Recognizing
import GrammarCompiler.Proofs.Refining
import GrammarCompiler.Proofs.Regrouping
import GrammarCompiler.Proofs.Repeats
import GrammarCompiler.Proofs.Rereading
import GrammarCompiler.Proofs.Resolution
import GrammarCompiler.Proofs.Scanning
import GrammarCompiler.Proofs.Scoping
import GrammarCompiler.Proofs.Searching
import GrammarCompiler.Proofs.Sharing
import GrammarCompiler.Proofs.Simplifying
import GrammarCompiler.Proofs.Simulation
import GrammarCompiler.Proofs.Soundness
import GrammarCompiler.Proofs.Spans
import GrammarCompiler.Proofs.Spelling
import GrammarCompiler.Proofs.Splicing
import GrammarCompiler.Proofs.Stages
import GrammarCompiler.Proofs.Starting
import GrammarCompiler.Proofs.StateMerging
import GrammarCompiler.Proofs.Storing
import GrammarCompiler.Proofs.Subsets
import GrammarCompiler.Proofs.Substituting
import GrammarCompiler.Proofs.Succeeding
import GrammarCompiler.Proofs.Tabling
import GrammarCompiler.Proofs.Tokenizers
import GrammarCompiler.Proofs.Trees
import GrammarCompiler.Proofs.Visiting
import GrammarCompiler.Proofs.Walking
import GrammarCompiler.Table.Assemble
import GrammarCompiler.Table.Basic
import GrammarCompiler.Table.Code
import GrammarCompiler.Table.Goto
import GrammarCompiler.Table.Lookup
import GrammarCompiler.Table.Nodes
import GrammarCompiler.Table.Records
import GrammarCompiler.Table.Words
import GrammarCompiler.Text.LetterTables
import GrammarCompiler.Text.Letters
import GrammarCompiler.Text.Quoted
import GrammarCompiler.Text.Source
import GrammarCompiler.Text.Units
import GrammarCompiler.Tokenizer.Build
import GrammarCompiler.Tokenizer.Dfa
import GrammarCompiler.Tokenizer.Groups
import GrammarCompiler.Tokenizer.Language
import GrammarCompiler.Tokenizer.Layout
import GrammarCompiler.Tokenizer.Lookup
import GrammarCompiler.Tokenizer.Minimize
import GrammarCompiler.Tokenizer.Nfa
import GrammarCompiler.Tokenizer.Origin
import GrammarCompiler.Tokenizer.Overlap
import GrammarCompiler.Tokenizer.Precedence
import GrammarCompiler.Tokenizer.Walk
