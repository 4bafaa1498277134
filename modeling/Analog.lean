import Analog.Assignment
import Analog.Bindings
import Analog.Breakpoints
import Analog.Canonical.Circuit
import Analog.Canonical.Memo
import Analog.Canonical.Scalar
import Analog.Canonical.Waveform
import Analog.Channel
import Analog.Circuit
import Analog.Command
import Analog.Command.Flags
import Analog.Command.Usage
import Analog.Decimal
import Analog.Decimal.Binary
import Analog.Decimal.Text
import Analog.Device
import Analog.Document
import Analog.Document.Reader
import Analog.Failure
import Analog.Field
import Analog.Files
import Analog.Fingerprint
import Analog.Job
import Analog.KeyedMap
import Analog.KeyedMap.Stored
import Analog.Main
import Analog.Modulation
import Analog.NameMap
import Analog.Padding
import Analog.Pulse
import Analog.Records
import Analog.Register
import Analog.Register.Tiling
import Analog.Report
import Analog.Report.Escape
import Analog.Report.Table
import Analog.Report.Task
import Analog.Routine
import Analog.Routine.InPlace
import Analog.Scalar
import Analog.Scalar.Comparison
import Analog.Scalar.Value
import Analog.Sequence
import Analog.Sequence.Comparison
import Analog.Sequence.Flat
import Analog.Series
import Analog.Series.Lowering
import Analog.Series.Validation
import Analog.Stack
import Analog.Stack.Comparison
import Analog.Stack.Fold
import Analog.Tagged.Node
import Analog.Tagged.Reader
import Analog.Tagged.Writer
import Analog.Task
import Analog.Term
import Analog.Term.Layout
import Analog.Term.Reader
import Analog.Text.Blank
import Analog.Text.Quoted
import Analog.Text.Source
import Analog.Variables
import Analog.Waveform
import Analog.Waveform.Builtin
import Analog.Waveform.Duration
import Analog.Waveform.Evaluator
import Analog.Waveform.Signal
import Analog.Waveform.Smoothing
import Analog.Proofs.IncreasingTimes
import Analog.Proofs.Breakpoints
import Analog.Proofs.CanonicalScalars
import Analog.Proofs.CanonicalWaveforms
import Analog.Proofs.ConstantLowering
import Analog.Proofs.DecimalRing
import Analog.Proofs.Durations
import Analog.Proofs.Evaluation
import Analog.Proofs.LinearFunctions
import Analog.Proofs.LinearLowering
import Analog.Proofs.LinearValidation
import Analog.Proofs.Outcomes
import Analog.Proofs.Outlines
import Analog.Proofs.RememberedWork
import Analog.Proofs.SampleTimes
import Analog.Proofs.ScalarEquality
import Analog.Proofs.SignalAlgebra
import Analog.Proofs.SignalRefinement
import Analog.Proofs.Signals
import Analog.Proofs.StepFunctions
import Analog.Proofs.WaveformMeaning
import Analog.Proofs.WaveformNodes
import Analog.Proofs.Neighbours
import Analog.Proofs.AssignedPrograms
import Analog.Proofs.CanonicalNumbers
import Analog.Proofs.FixedForms
import Analog.Proofs.FixedMeaning
import Analog.Proofs.PulseDurations
import Analog.Proofs.SequenceParts
import Analog.Proofs.CanonicalCircuits
import Analog.Proofs.PaddedSequences
import Analog.Proofs.FlatSequences
import Analog.Proofs.KnownForms
import Analog.Proofs.CompiledTasks
import Analog.Proofs.DeviceLimits
import Analog.Proofs.RoundedQuotients
import Analog.Proofs.EndValues
import Analog.Proofs.RecordedEnds
import Analog.Proofs.CanonicalSeries
import Analog.Proofs.SubstitutedScalars
import Analog.Proofs.AssignedMeaning
import Analog.Proofs.ComposedAssignments
import Analog.Proofs.ClosedPrograms
import Analog.Proofs.Substitution
import Analog.Proofs.SubstitutedNodes
import Analog.Proofs.ChannelEquality
import Analog.Proofs.FlatChannels
import Analog.Proofs.CompleteChannels
import Analog.Proofs.RecordedValues
import Analog.Proofs.FormedNodes
import Analog.Proofs.AssignedVariables
import Analog.Proofs.CanonicalFields
import Analog.Proofs.MergedDrives
import Analog.Proofs.CanonicalChannels
import Analog.Proofs.ScalarRules
import Analog.Proofs.SimpleScalars
import Analog.Proofs.AlikeScalars
import Analog.Proofs.DirectForms
import Analog.Proofs.RememberedForms
import Analog.Proofs.CanonicalValues
import Analog.Proofs.WaveformEquality
import Analog.Proofs.SimpleWaveforms
import Analog.Proofs.SimpleForms
import Analog.Proofs.RepeatedForms
import Analog.Proofs.ShrinkingForms
import Analog.Proofs.StableWaveforms
import Analog.Proofs.TermGrammar
import Analog.Proofs.TermSpans
import Analog.Proofs.RenderedTerms
import Analog.Proofs.DecimalText
import Analog.Proofs.TermReadings
import Analog.Proofs.WrittenNodes
import Analog.Proofs.WrittenSequences
import Analog.Proofs.RestoredNodes
import Analog.Proofs.ListForms
import Analog.Proofs.CheckedArguments
import Analog.Proofs.CheckedLists
import Analog.Proofs.LaidOutTerms
import Analog.Proofs.ClosedScalars
import Analog.Proofs.SteppedWaveforms
import Analog.Proofs.ConstantValidation
import Analog.Proofs.LoweredSeries
import Analog.Proofs.EqualSeries
import Analog.Proofs.SymbolicDurations
import Analog.Proofs.CutSeries
import Analog.Proofs.NestedAppends
import Analog.Proofs.WaveformValues
import Analog.Proofs.EvaluationAborts
import Analog.Proofs.SampledWaveforms
import Analog.Proofs.PaddedDrives
import Analog.Proofs.FilledAreas
import Analog.Proofs.TiledSites
import Analog.Proofs.BindingsInPlace
import Analog.Proofs.BoundArguments
import Analog.Proofs.RelatedScalars
import Analog.Proofs.ComparedScalars
import Analog.Proofs.ConsistentEquality
import Analog.Proofs.ComparedFields
import Analog.Proofs.ComparedSequences
import Analog.Proofs.AlignedTables
import Analog.Proofs.FoldedTrees
import Analog.Proofs.StoredRows
import Analog.Proofs.InsertedEntries
import Analog.Proofs.ExactLookups
import Analog.Proofs.Stretches
import Analog.Proofs.PiecedWaveforms
import Analog.Proofs.CanonicalStretches
import Analog.Proofs.ChannelCourses
import Analog.Proofs.FlatCourses
import Analog.Proofs.PaddedCourses
import Analog.Proofs.CanonicalCourses
import Analog.Proofs.LoweredParts
import Analog.Proofs.UnmergedPrograms
import Analog.Proofs.PlacedLocations
