import AnalyticsEngine.ExactTopK.Exact
import AnalyticsEngine.SimilarArtists.History
import AnalyticsEngine.SimilarArtists.Rollback
import AnalyticsEngine.Cache.FallThrough
import AnalyticsEngine.Cache.Transparency
import AnalyticsEngine.Activity.SummaryExact
import AnalyticsEngine.Embeddings.Locality
import AnalyticsEngine.Embeddings.Adjacency
import AnalyticsEngine.EmbeddingPipeline.Exact
import AnalyticsEngine.EmbeddingPipeline.Committed
import AnalyticsEngine.StyleAtlas.Months
import AnalyticsEngine.StyleAtlas.Optimal
import AnalyticsEngine.StyleAtlas.Independence
import AnalyticsEngine.StyleAtlas.Concurrency
import AnalyticsEngine.StyleAtlas.Agreement
import AnalyticsEngine.Computations.Log
import AnalyticsEngine.Rarity.Lifecycle
import AnalyticsEngine.StyleAtlas.Hulls
import AnalyticsEngine.StyleAtlas.Doubles
import AnalyticsEngine.Computations.Anniversaries
import AnalyticsEngine.Computations.LabelLongevity
import AnalyticsEngine.EmbeddingPipeline.Collisions
import AnalyticsEngine.SimilarArtists.ReadBack
import AnalyticsEngine.Cache.Invalidate
import AnalyticsEngine.Embeddings.Hashing
import AnalyticsEngine.ExactTopK.Independent
import AnalyticsEngine.ExactTopK.RankKeys
import AnalyticsEngine.DumpGraph.Checkpoint
import AnalyticsEngine.DumpGraph.Passes
import AnalyticsEngine.RecallChurn.StreamTopK
import AnalyticsEngine.RecallChurn.Ties
import AnalyticsEngine.RecallChurn.WriteMonth
import AnalyticsEngine.RecallChurn.Sample
import AnalyticsEngine.RecallChurn.Driver
import AnalyticsEngine.Computations.Ledger
import AnalyticsEngine.Computations.Running
import AnalyticsEngine.Computations.Snapshots
import AnalyticsEngine.DumpGraph.OutFiles
