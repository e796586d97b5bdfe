import LayerGraph.ApiError
import LayerGraph.Arena
import LayerGraph.Binary64
import LayerGraph.Blake3
import LayerGraph.Blank
import LayerGraph.Block
import LayerGraph.BlockCodec
import LayerGraph.CommandLine
import LayerGraph.Compile
import LayerGraph.CompileError
import LayerGraph.Decimal
import LayerGraph.Edit
import LayerGraph.Graph
import LayerGraph.GraphCodec
import LayerGraph.GraphError
import LayerGraph.Http
import LayerGraph.IndexedGraph
import LayerGraph.Insert
import LayerGraph.IntegerText
import LayerGraph.Jobs
import LayerGraph.Json
import LayerGraph.JsonDecoder
import LayerGraph.JsonPrinter
import LayerGraph.JsonReader
import LayerGraph.Kind
import LayerGraph.Linearization
import LayerGraph.Main
import LayerGraph.MemoryStore
import LayerGraph.Model
import LayerGraph.Node
import LayerGraph.ParamValue
import LayerGraph.ProjectService
import LayerGraph.ProjectStore
import LayerGraph.Proofs.Accounted
import LayerGraph.Proofs.Arrivals
import LayerGraph.Proofs.Backends
import LayerGraph.Proofs.BlockText
import LayerGraph.Proofs.Candidates
import LayerGraph.Proofs.Cascaded
import LayerGraph.Proofs.CheckedLens
import LayerGraph.Proofs.Checks
import LayerGraph.Proofs.Coherent
import LayerGraph.Proofs.Compilable
import LayerGraph.Proofs.CompiledAlike
import LayerGraph.Proofs.ContentBytes
import LayerGraph.Proofs.Contents
import LayerGraph.Proofs.DepthFirst
import LayerGraph.Proofs.Detour
import LayerGraph.Proofs.DocumentCodec
import LayerGraph.Proofs.Domains
import LayerGraph.Proofs.DomainsKept
import LayerGraph.Proofs.DrawnEdges
import LayerGraph.Proofs.EditInPlace
import LayerGraph.Proofs.Edits
import LayerGraph.Proofs.Emitted
import LayerGraph.Proofs.FreshIds
import LayerGraph.Proofs.History
import LayerGraph.Proofs.Identified
import LayerGraph.Proofs.IndexedGraphs
import LayerGraph.Proofs.Inserted
import LayerGraph.Proofs.JobHistory
import LayerGraph.Proofs.JsonInjective
import LayerGraph.Proofs.JsonText
import LayerGraph.Proofs.JsonValues
import LayerGraph.Proofs.Kept
import LayerGraph.Proofs.Lists
import LayerGraph.Proofs.Loadable
import LayerGraph.Proofs.LoadedBack
import LayerGraph.Proofs.Locked
import LayerGraph.Proofs.MemoryContents
import LayerGraph.Proofs.ModelCodec
import LayerGraph.Proofs.Narrowed
import LayerGraph.Proofs.NumberText
import LayerGraph.Proofs.Parameters
import LayerGraph.Proofs.Placeholders
import LayerGraph.Proofs.Propagated
import LayerGraph.Proofs.Rebuilt
import LayerGraph.Proofs.Recomposed
import LayerGraph.Proofs.Reconciled
import LayerGraph.Proofs.Records
import LayerGraph.Proofs.RecordsRead
import LayerGraph.Proofs.Refused
import LayerGraph.Proofs.Reloaded
import LayerGraph.Proofs.Reported
import LayerGraph.Proofs.Rounding
import LayerGraph.Proofs.SameContent
import LayerGraph.Proofs.ServiceSteps
import LayerGraph.Proofs.Settled
import LayerGraph.Proofs.Slots
import LayerGraph.Proofs.Starts
import LayerGraph.Proofs.StoreOperations
import LayerGraph.Proofs.Strays
import LayerGraph.Proofs.Synced
import LayerGraph.Proofs.TableContents
import LayerGraph.Proofs.Trainable
import LayerGraph.Proofs.Unrevised
import LayerGraph.Proofs.Validated
import LayerGraph.Proofs.WellFormed
import LayerGraph.Reconcile
import LayerGraph.Report
import LayerGraph.Resource
import LayerGraph.Revision
import LayerGraph.Saturating
import LayerGraph.Schema
import LayerGraph.Server
import LayerGraph.ServerConfig
import LayerGraph.ShapeConfig
import LayerGraph.SpatialSize
import LayerGraph.StorageError
import LayerGraph.StoredRow
import LayerGraph.TableArchive
import LayerGraph.TableStore
import LayerGraph.TrainingService
import LayerGraph.UrlText
import LayerGraph.Violation
import LayerGraph.Walk
