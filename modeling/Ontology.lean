import Ontology.Binary64.Text
import Ontology.Text.Quoted
import Ontology.Tree.Json
import Ontology.Tree.JsonReader
import Ontology.Tree.JsonRecord
import Ontology.Yaml.ScalarText
import Ontology.Yaml.Scan
import Ontology.Yaml.Node
import Ontology.Yaml.Document
import Ontology.Expression
import Ontology.World
import Ontology.World.Describe
import Ontology.World.Inference
import Ontology.Loading.Error
import Ontology.Loading.Meaning
import Ontology.Text.Lexeme
import Ontology.Rule.Token
import Ontology.Rule.Reader
import Ontology.Loading.Restriction
import Ontology.Rdf.Term
import Ontology.World.Graph
import Ontology.Rdf.Canonical
import Ontology.Rdf.Iri
import Ontology.Rdf.LanguageTag
import Ontology.Rdf.Lexical
import Ontology.Rdf.Token
import Ontology.Rdf.Collected
import Ontology.Rdf.Reading
import Ontology.Rdf.NTriples
import Ontology.Rdf.Turtle
import Ontology.Rdf.N3
import Ontology.Rdf.Xml
import Ontology.Rdf.RdfXml
import Ontology.Rdf.JsonContext
import Ontology.Rdf.JsonLd
import Ontology.Rdf.Format
import Ontology.Expression.Outline
import Ontology.Loading.Folder
import Ontology.Loading.Session
import Ontology.Loading.Facts
import Ontology.Loading.RelationConcept
import Ontology.Loading.Declaration
import Ontology.Loading.Import
import Ontology.Loading.Document
import Ontology.Workspace.Settings
import Ontology.Reasoning.Truth
import Ontology.Reasoning.Interpretation
import Ontology.Reasoning.Schema
import Ontology.Reasoning.Evaluation
import Ontology.Reasoning.Inconsistency
import Ontology.Reasoning.Rules
import Ontology.Reasoning.IndexedInterpretation
import Ontology.Reasoning.Saturation
import Ontology.Reasoning.Problem
import Ontology.Reasoning.Search
import Ontology.Reasoning.FiniteModel
import Ontology.Query.Token
import Ontology.Query.Syntax
import Ontology.Query.Reader
import Ontology.Query.Evaluation
import Ontology.Text.Words
import Ontology.Query.Answer
import Ontology.Workspace
import Ontology.Workspace.Report
import Ontology.Workspace.Shell
import Ontology.Workspace.Arguments
import Ontology.Workspace.Command
import Ontology.Workspace.Execution
import Ontology.Workspace.Sources
import Ontology.Main
import Ontology.Proofs.Refinement
import Ontology.Proofs.Solutions
import Ontology.Proofs.Pruning
import Ontology.Proofs.Enumeration
import Ontology.Proofs.Growth
import Ontology.Proofs.Renaming
import Ontology.Proofs.Lists
import Ontology.Proofs.Monotone
import Ontology.Proofs.Closure
import Ontology.Proofs.Markers
import Ontology.Proofs.LaterTypes
import Ontology.Proofs.Course
import Ontology.Proofs.Inferred
import Ontology.Proofs.Clashes
import Ontology.Proofs.Scopes
import Ontology.Proofs.Members
import Ontology.Proofs.Agreement
import Ontology.Proofs.Repetition
import Ontology.Proofs.Limits
import Ontology.Proofs.Vocabulary
import Ontology.Proofs.Loading
import Ontology.Proofs.Inverses
import Ontology.Proofs.Naming
import Ontology.Proofs.Characteristics
import Ontology.Proofs.Support
import Ontology.Proofs.ConsistentGrowth
import Ontology.Proofs.RuleFiring
import Ontology.Proofs.Conjunction
import Ontology.Proofs.Hierarchy
import Ontology.Proofs.References
import Ontology.Proofs.Extension
import Ontology.Proofs.Steps
import Ontology.Proofs.Statements
import Ontology.Proofs.Grounded
import Ontology.Proofs.StatedValues
import Ontology.Proofs.Matches
import Ontology.Proofs.Answers
import Ontology.Proofs.Keywords
import Ontology.Proofs.WrittenFacts
import Ontology.Proofs.ValueOrder
import Ontology.Proofs.Identifiers
import Ontology.Proofs.Denotation
import Ontology.Proofs.Export
import Ontology.Proofs.ReadBack
import Ontology.Proofs.ValueAnswers
import Ontology.Proofs.TypeAnswers
import Ontology.Proofs.RestrictionExport
import Ontology.Proofs.Settled
import Ontology.Proofs.RestrictionNotation
import Ontology.Proofs.Notes
import Ontology.Proofs.MainRoles
import Ontology.Proofs.DistinctKeys
import Ontology.Proofs.Entries
import Ontology.Proofs.NumberedEntries
import Ontology.Proofs.Commitment
import Ontology.Proofs.QueryNotation
import Ontology.Proofs.QueryUnambiguous
import Ontology.Proofs.QueryReading
import Ontology.Proofs.Lexing
import Ontology.Proofs.QueryTexts
import Ontology.Proofs.RuleTokens
import Ontology.Proofs.RuleNotation
import Ontology.Proofs.Qualifiers
import Ontology.Proofs.Merging
import Ontology.Proofs.StackSearch
import Ontology.Proofs.Mentions
import Ontology.Proofs.Termination
import Ontology.Proofs.Proxies
import Ontology.Proofs.Rounding
import Ontology.Proofs.IntegerLiterals
import Ontology.Proofs.Indexes
