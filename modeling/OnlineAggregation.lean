import OnlineAggregation.Config.Loader
import OnlineAggregation.Config.Schema
import OnlineAggregation.Run.Traced
import OnlineAggregation.Trace.Export
import OnlineAggregation.Proofs.Binary64.Mantissa
import OnlineAggregation.Proofs.Binary64.Operations
import OnlineAggregation.Proofs.Accumulator.MeanWithinRange
import OnlineAggregation.Proofs.Accumulator.ExactArithmetic
import OnlineAggregation.Proofs.Aggregator.History
import OnlineAggregation.Proofs.Aggregator.InPlace
import OnlineAggregation.Proofs.Run.StoppingLoop
import OnlineAggregation.Proofs.Bound.HalfWidth
import OnlineAggregation.Proofs.Aggregator.FiniteHalfWidth
import OnlineAggregation.Proofs.Bound.SamplePlan
import OnlineAggregation.Proofs.Decimal.Binary
import OnlineAggregation.Proofs.Decimal.Shortest
import OnlineAggregation.Proofs.Json.Literal
import OnlineAggregation.Proofs.Json.FloatText
import OnlineAggregation.Proofs.Json.FloatRange
import OnlineAggregation.Proofs.Json.RereadError
import OnlineAggregation.Proofs.Json.Skeleton
import OnlineAggregation.Proofs.Json.Grammar
import OnlineAggregation.Proofs.Json.Tree
import OnlineAggregation.Proofs.Json.Record
import OnlineAggregation.Proofs.Config.Building
import OnlineAggregation.Proofs.Config.ReadBack
import OnlineAggregation.Proofs.Config.Reload
import OnlineAggregation.Proofs.Run.Report
import OnlineAggregation.Proofs.Run.DueCounts
import OnlineAggregation.Proofs.Estimator.InStep
import OnlineAggregation.Proofs.Trace.ReadBack
import OnlineAggregation.Proofs.Aggregator.Monotone
import OnlineAggregation.Proofs.Aggregator.Availability
import OnlineAggregation.Proofs.Aggregator.Session
import OnlineAggregation.Proofs.Run.Sources
import OnlineAggregation.Proofs.Run.PlannedSample
import OnlineAggregation.Proofs.Binary64.Monotone
import OnlineAggregation.Proofs.Bound.EasierRequests
import OnlineAggregation.Proofs.Aggregator.DeclaredDomain
import OnlineAggregation.Proofs.Run.SideBySide
import OnlineAggregation.Proofs.Run.AllOrNothing
import OnlineAggregation.Proofs.Run.Agreement
import OnlineAggregation.Proofs.Bound.EqualEnds
import OnlineAggregation.Proofs.Aggregator.ValueOrder
import OnlineAggregation.Proofs.Aggregator.Independence
import OnlineAggregation.Proofs.Config.Construction
import OnlineAggregation.Proofs.Decimal.RoundTrip
import OnlineAggregation.Proofs.Json.Survival
import OnlineAggregation.Proofs.Trace.EstimateSurvival
import OnlineAggregation.Proofs.Aggregator.ObservedRange
import OnlineAggregation.Proofs.Run.Log
import OnlineAggregation.Proofs.Accumulator.Coverage
import OnlineAggregation.Proofs.Json.Draft
import OnlineAggregation.Proofs.Config.OmittedFields
import OnlineAggregation.Proofs.Decimal.RunningText
import OnlineAggregation.Proofs.Trace.Closing
import OnlineAggregation.Proofs.Trace.PowerSearch
import OnlineAggregation.Proofs.Trace.Table
