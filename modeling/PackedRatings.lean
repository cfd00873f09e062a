import PackedRatings.Failure
import PackedRatings.File.BigEndian
import PackedRatings.File.FileHeader
import PackedRatings.File.FlatRuns
import PackedRatings.File.Packing
import PackedRatings.File.RowLayout
import PackedRatings.File.RowSection
import PackedRatings.File.RunTable
import PackedRatings.Keys.Ascending
import PackedRatings.Keys.Cut
import PackedRatings.Keys.KeyWindow
import PackedRatings.Keys.Search
import PackedRatings.Listing
import PackedRatings.Number.Arithmetic
import PackedRatings.Number.Binary64
import PackedRatings.Number.Decimal
import PackedRatings.Proofs.File.Fields
import PackedRatings.Proofs.File.HeaderFields
import PackedRatings.Proofs.File.Image
import PackedRatings.Proofs.File.Loading
import PackedRatings.Proofs.File.PackingRun
import PackedRatings.Proofs.File.RowPlaces
import PackedRatings.Proofs.File.Rows
import PackedRatings.Proofs.File.TableReading
import PackedRatings.Proofs.File.WordArithmetic
import PackedRatings.Proofs.Keys.Construction
import PackedRatings.Proofs.Outcome
import PackedRatings.Proofs.Ranking.HeapOrder
import PackedRatings.Proofs.Ranking.TopRanking
import PackedRatings.Proofs.Ranking.TopSelection
import PackedRatings.Proofs.Store.Acceptance
import PackedRatings.Proofs.Store.PackedStore
import PackedRatings.Proofs.Vector.DraftRuns
import PackedRatings.Proofs.Vector.PartialMap
import PackedRatings.Proofs.Vector.SlotMembers
import PackedRatings.Ranking.FullCollector
import PackedRatings.Ranking.Scored
import PackedRatings.Ranking.SlotHeap
import PackedRatings.Ranking.TopCollector
import PackedRatings.Requirement
import PackedRatings.Store.Cursor
import PackedRatings.Store.EventNames
import PackedRatings.Store.RatingStore
import PackedRatings.Store.Selection
import PackedRatings.Vector.DraftVector
import PackedRatings.Vector.KeyedVector
import PackedRatings.Vector.Products
import PackedRatings.Vector.SlotSet
import PackedRatings.Vector.ValueMap
import PackedRatings.Proofs.File.RowReading
import PackedRatings.Proofs.Vector.Pairs
import PackedRatings.Proofs.Store.Views
import PackedRatings.Proofs.Store.ReadingInRange
import PackedRatings.Proofs.File.Reencoding
import PackedRatings.Proofs.Store.Reencoding
import PackedRatings.Proofs.Store.KeyAttribution
import PackedRatings.Proofs.Keys.Cuts
import PackedRatings.Proofs.Keys.Ranks
import PackedRatings.Proofs.Ranking.HeapRuns
import PackedRatings.Proofs.Keys.StableSort
import PackedRatings.Proofs.Vector.Restrictions
import PackedRatings.Proofs.Store.Traversals
import PackedRatings.Proofs.Ranking.HeapLocality
import PackedRatings.Proofs.Ranking.LifeCycle
import PackedRatings.Proofs.Vector.OrderedMaps
import PackedRatings.Proofs.Vector.SlotRuns
import PackedRatings.Proofs.File.PackingCalls
import PackedRatings.Proofs.Vector.MergeWalk
import PackedRatings.Proofs.Number.Sums
import PackedRatings.Proofs.Vector.MissingKeys
import PackedRatings.Proofs.Ranking.Finishes
import PackedRatings.Proofs.Store.Sessions
import PackedRatings.Proofs.Store.TimeOrder
import PackedRatings.Proofs.Store.LatestValues
import PackedRatings.Proofs.File.TableRoundTrip
import PackedRatings.Proofs.Store.FileEnd
import PackedRatings.Proofs.File.RejectedRatings
import PackedRatings.Proofs.File.HeaderCodec
import PackedRatings.Proofs.File.CutHeader
import PackedRatings.Proofs.Store.UnfinishedFiles
import PackedRatings.Proofs.Vector.Copies
import PackedRatings.Proofs.Vector.Freezing
import PackedRatings.Proofs.Keys.NestedCuts
import PackedRatings.Proofs.Keys.Repeats
import PackedRatings.Proofs.Vector.UnorderedPairs
import PackedRatings.Proofs.Store.Partners
import PackedRatings.Proofs.Vector.BulkCalls
import PackedRatings.Proofs.Keys.Defects
import PackedRatings.Proofs.File.EachRowOnce
import PackedRatings.Proofs.Ranking.NaNOrder
import PackedRatings.Proofs.Ranking.SlotDiscipline
import PackedRatings.Proofs.Vector.Equality
import PackedRatings.Proofs.Store.CountedPasses
import PackedRatings.Proofs.Store.Countdown
import PackedRatings.Proofs.Number.Rounding
import PackedRatings.Proofs.Number.ShortestDecimals
import PackedRatings.Proofs.Number.DecimalTexts
import PackedRatings.Proofs.Store.EventNames
import PackedRatings.Proofs.Listings
