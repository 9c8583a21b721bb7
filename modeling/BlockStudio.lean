import BlockStudio.Block
import BlockStudio.BoundedLog
import BlockStudio.Catalog
import BlockStudio.Color
import BlockStudio.CommandLine
import BlockStudio.Document
import BlockStudio.Document.Decode
import BlockStudio.Document.Encode
import BlockStudio.Document.Project
import BlockStudio.Editor
import BlockStudio.Editor.View
import BlockStudio.Event
import BlockStudio.Game
import BlockStudio.Geometry
import BlockStudio.Graph
import BlockStudio.Graph.Rebuild
import BlockStudio.Json.Basic
import BlockStudio.Json.Decode
import BlockStudio.Json.Lexer
import BlockStudio.Json.Number
import BlockStudio.Json.Reader
import BlockStudio.Json.Writer
import BlockStudio.Key
import BlockStudio.Label
import BlockStudio.Layout
import BlockStudio.Main
import BlockStudio.Number.Binary
import BlockStudio.Number.Counter
import BlockStudio.Number.Numeral
import BlockStudio.Number.Shortest
import BlockStudio.Number.Style
import BlockStudio.Random
import BlockStudio.Report
import BlockStudio.Scene
import BlockStudio.Script.Action
import BlockStudio.Script.Engine
import BlockStudio.Script.Limits
import BlockStudio.Script.Machine
import BlockStudio.Script.Session
import BlockStudio.Script.State
import BlockStudio.Script.Task
import BlockStudio.Script.Trigger
import BlockStudio.Script.Weight
import BlockStudio.Snap
import BlockStudio.Studio
import BlockStudio.Studio.Buttons
import BlockStudio.Studio.Clock
import BlockStudio.Studio.Drawing
import BlockStudio.Studio.KeyCode
import BlockStudio.Studio.Wheel
import BlockStudio.Studio.Window
import BlockStudio.Table
import BlockStudio.Text.Blank
import BlockStudio.Viewport
import BlockStudio.World
import BlockStudio.Proofs.Evaluator
import BlockStudio.Proofs.Agenda
import BlockStudio.Proofs.Termination
import BlockStudio.Proofs.Books
import BlockStudio.Proofs.Waiting
import BlockStudio.Proofs.WellFormed
import BlockStudio.Proofs.EditorRuns
import BlockStudio.Proofs.RoundTrip
import BlockStudio.Proofs.Preorder
import BlockStudio.Proofs.Places
import BlockStudio.Proofs.Moves
import BlockStudio.Proofs.Issue
import BlockStudio.Proofs.Changes
import BlockStudio.Proofs.Identity
import BlockStudio.Proofs.Dragging
import BlockStudio.Proofs.Hats
import BlockStudio.Proofs.CleanStart
import BlockStudio.Proofs.Inlining
import BlockStudio.Proofs.Loops
import BlockStudio.Proofs.SavedDocuments
import BlockStudio.Proofs.ScoreMirror
import BlockStudio.Proofs.Edges
import BlockStudio.Proofs.LoneScripts
import BlockStudio.Proofs.IndependentScripts
import BlockStudio.Proofs.ScoreTriggers
import BlockStudio.Proofs.Nesting
import BlockStudio.Proofs.Tracked
import BlockStudio.Proofs.Destroying
import BlockStudio.Proofs.Modes
import BlockStudio.Proofs.Stopping
import BlockStudio.Proofs.Headless
import BlockStudio.Proofs.LoadedPrograms
import BlockStudio.Proofs.Resaving
import BlockStudio.Proofs.Reloading
import BlockStudio.Proofs.ChainOrder
import BlockStudio.Proofs.FieldReadings
import BlockStudio.Proofs.ResumeOrder
import BlockStudio.Proofs.Teardown
import BlockStudio.Proofs.Traversals
import BlockStudio.Proofs.Reinserting
import BlockStudio.Proofs.SingleOrder
import BlockStudio.Proofs.Snapping
import BlockStudio.Proofs.DragPaths
import BlockStudio.Proofs.Requests
import BlockStudio.Proofs.Compiling
import BlockStudio.Proofs.Pieces
import BlockStudio.Proofs.Logs
import BlockStudio.Proofs.Spelling
import BlockStudio.Proofs.KeyNames
import BlockStudio.Proofs.Roles
import BlockStudio.Proofs.FaultCauses
