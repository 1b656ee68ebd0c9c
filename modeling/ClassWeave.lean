import ClassWeave.CommandLine.Directory
import ClassWeave.Main
import ClassWeave.Number.Shortest
import ClassWeave.Pass.Substitution
import ClassWeave.Proofs.Order
import ClassWeave.Proofs.Tiling
import ClassWeave.Proofs.Copying
import ClassWeave.Proofs.Stretching
import ClassWeave.Proofs.Survival
import ClassWeave.Proofs.Governing
import ClassWeave.Proofs.Anchoring
import ClassWeave.Proofs.Insertion
import ClassWeave.Proofs.Acceptance
import ClassWeave.Proofs.Frontier
import ClassWeave.Proofs.PassEdits
import ClassWeave.Proofs.Marking
import ClassWeave.Proofs.Settling
import ClassWeave.Proofs.Evaluation
import ClassWeave.Proofs.Likeness
import ClassWeave.Proofs.Standing
import ClassWeave.Proofs.Writing
import ClassWeave.Proofs.Offering
import ClassWeave.Proofs.Tidiness
import ClassWeave.Proofs.Rereading
import ClassWeave.Proofs.Simplifying
import ClassWeave.Proofs.Compiling
import ClassWeave.Proofs.Meaning
import ClassWeave.Proofs.Becoming
import ClassWeave.Proofs.Keeping
import ClassWeave.Proofs.Following
import ClassWeave.Proofs.Completing
import ClassWeave.Proofs.Lexing
import ClassWeave.Proofs.Quoting
import ClassWeave.Proofs.Reading
import ClassWeave.Proofs.StaticTree
import ClassWeave.Proofs.TreeReading
import ClassWeave.Proofs.StatementReading
import ClassWeave.Proofs.HelperHeader
import ClassWeave.Proofs.ProgramReading
import ClassWeave.Proofs.SnippetReading
import ClassWeave.Proofs.Legibility
import ClassWeave.Proofs.Patching
import ClassWeave.Proofs.SnippetSettling
import ClassWeave.Proofs.TreeStep
import ClassWeave.Proofs.TreeRun
import ClassWeave.Proofs.TreeRereading
import ClassWeave.Proofs.ProgramRereading
import ClassWeave.Proofs.Limiting
import ClassWeave.Proofs.Failing
import ClassWeave.Proofs.Regrowing
import ClassWeave.Proofs.Peeling
import ClassWeave.Proofs.Framing
import ClassWeave.Proofs.Touching
import ClassWeave.Proofs.Stretches
import ClassWeave.Proofs.Weighing
import ClassWeave.Proofs.Outlines
import ClassWeave.Proofs.Renewal
import ClassWeave.Proofs.Descending
import ClassWeave.Proofs.Ending
import ClassWeave.Proofs.Concluding
import ClassWeave.Proofs.Splicing
import ClassWeave.Proofs.Accounting
import ClassWeave.Proofs.EscapeReading
import ClassWeave.Proofs.Glyphs
import ClassWeave.Proofs.Seams
import ClassWeave.Proofs.OperandReading
import ClassWeave.Proofs.TemplateReading
import ClassWeave.Proofs.Gluing
import ClassWeave.Proofs.ChoiceReading
import ClassWeave.Proofs.Separation
import ClassWeave.Proofs.Covering
import ClassWeave.Proofs.Columns
import ClassWeave.Proofs.Footing
import ClassWeave.Proofs.Reaching
import ClassWeave.Proofs.Bounds
import ClassWeave.Proofs.Partition
import ClassWeave.Proofs.LiteralReading
import ClassWeave.Proofs.Repadding
import ClassWeave.Proofs.Braiding
import ClassWeave.Proofs.Layout
import ClassWeave.Proofs.Inking
import ClassWeave.Proofs.NormalForm
import ClassWeave.Proofs.Normalizing
import ClassWeave.Proofs.GapReading
import ClassWeave.Proofs.TokenReading
import ClassWeave.Proofs.TokenRuns
import ClassWeave.Proofs.SpecifierReading
import ClassWeave.Proofs.ImportReading
import ClassWeave.Proofs.ImportWriting
import ClassWeave.Proofs.ImportRewriting
import ClassWeave.Proofs.Distinctness
import ClassWeave.Proofs.Traversal
import ClassWeave.Proofs.ByteOrder
import ClassWeave.Proofs.Laying
