import CodebaseMemory.Sqlite.IndexBtree
import CodebaseMemory.Sqlite.TableBtree
import CodebaseMemory.Sqlite.Occupancy
import CodebaseMemory.Sqlite.Allocation
import CodebaseMemory.GraphBuffer.Lookup
import CodebaseMemory.GraphBuffer.Liveness
import CodebaseMemory.GraphBuffer.Merge
import CodebaseMemory.Pipeline.Staleness
import CodebaseMemory.Pipeline.Orphans
import CodebaseMemory.GraphBuffer.RoundTrip
import CodebaseMemory.GraphBuffer.UrlPath
import CodebaseMemory.Cypher.Pruning
import CodebaseMemory.Cypher.Complete
import CodebaseMemory.Cypher.Optional
import CodebaseMemory.Cypher.Walks
import CodebaseMemory.Cypher.GroupBy
import CodebaseMemory.Cypher.WithReturn
import CodebaseMemory.Pipeline.Containment
import CodebaseMemory.Discover.Nested
import CodebaseMemory.Watcher.Forgets
import CodebaseMemory.Lsp.Finalize
import CodebaseMemory.Pipeline.Caches
import CodebaseMemory.Ac.Scan
import CodebaseMemory.Cypher.Accepts
import CodebaseMemory.Pipeline.FileNodes
import CodebaseMemory.Pipeline.Adr
import CodebaseMemory.Http.Stable
import CodebaseMemory.Manifest.Commit
import CodebaseMemory.Mcp.Answers
import CodebaseMemory.GraphBuffer.Persist
import CodebaseMemory.Sqlite.Stream
import CodebaseMemory.Sqlite.ReadBack
import CodebaseMemory.Query.Induced
import CodebaseMemory.Query.Glob
import CodebaseMemory.Artifact.Concurrent
import CodebaseMemory.CrossRepo.BothSides
import CodebaseMemory.Query.Degrees
import CodebaseMemory.Query.Boundaries
import CodebaseMemory.Cypher.Sorts
import CodebaseMemory.Cypher.Distinct
import CodebaseMemory.Cypher.Groups
import CodebaseMemory.Adr.Preserved
import CodebaseMemory.Foundation.JsonEscape
import CodebaseMemory.Pipeline.ProjectName
import CodebaseMemory.Http.Query
import CodebaseMemory.Http.Fields
import CodebaseMemory.Mcp.Snippet
import CodebaseMemory.Lsp.Overloads
import CodebaseMemory.Cypher.Printing
import CodebaseMemory.Cypher.JsonProp
import CodebaseMemory.Foundation.YamlRoundTrip
import CodebaseMemory.Cypher.PatternText
import CodebaseMemory.Pipeline.Registration
import CodebaseMemory.Pipeline.PathAlias
import CodebaseMemory.Pipeline.RelativeImport
import CodebaseMemory.Ac.Batch
import CodebaseMemory.Discover.GlobLanguage
import CodebaseMemory.Lsp.TypeEqual
import CodebaseMemory.Lsp.TypeUnion
import CodebaseMemory.Pipeline.LoopDepth
import CodebaseMemory.Pipeline.Recursion
import CodebaseMemory.Simhash.Lsh
import CodebaseMemory.Pipeline.Similarity
import CodebaseMemory.Pipeline.GitDiff
import CodebaseMemory.Pipeline.Coupling
import CodebaseMemory.Foundation.TextBuffers
import CodebaseMemory.Query.SearchWhere
import CodebaseMemory.Cypher.RowWidth
import CodebaseMemory.GraphBuffer.FromFile
import CodebaseMemory.Pipeline.ParallelExtract
