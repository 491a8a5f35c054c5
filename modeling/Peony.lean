import Peony.Object.Model
import Peony.Object.Parse
import Peony.Object.ParseBounds
import Peony.Object.Merge
import Peony.Symbols.Table
import Peony.Foundation.KeyedRun
import Peony.Foundation.Records
import Peony.Foundation.Representatives
import Peony.Layout.FoldMeaning
import Peony.Layout.Composition
import Peony.Layout.Geometry
import Peony.Layout.Sums
import Peony.Layout.Significance
import Peony.Load.ArchivePhase
import Peony.Load.Closure
import Peony.Load.Comdat
import Peony.Cache.Files
import Peony.Cache.Invocation
import Peony.Cache.Trust
import Peony.Cache.ReverseIndex
import Peony.Daemon.Session
import Peony.Daemon.Staleness
import Peony.Driver.Args
import Peony.Driver.ObjectLink
import Peony.Gc.Live
import Peony.Gc.Targets
import Peony.Gc.Kept
import Peony.Gc.Traversal
import Peony.Foundation.Spans
import Peony.Emit.Dispatch
import Peony.Emit.ReportCoverage
import Peony.Emit.MappedFile
import Peony.Emit.Merging
import Peony.Layout.Fingerprint
import Peony.Driver.HashOrder
import Peony.Layout.HeaderCount
import Peony.Layout.RuntimeAlignment
import Peony.Driver.TableRun
import Peony.Driver.Deduplication
import Peony.Driver.Exclusive
import Peony.Load.Extraction
import Peony.Driver.Finalized
import Peony.Driver.Relative
import Peony.Layout.Relro
import Peony.Reloc.Passes
import Peony.Verification.Refinement
import Peony.Reloc.Decode
import Peony.Emit.Footprints
import Peony.Layout.Features
import Peony.Driver.RelaDyn
import Peony.Driver.EmittedRelocs
import Peony.Layout.HashIndex
import Peony.Layout.Versions
import Peony.Emit.TlsRelaxation
import Peony.Driver.Patterns
import Peony.Layout.PlacedOnce
import Peony.Layout.ScriptOrder
import Peony.Driver.Storage
import Peony.Emit.Sections
import Peony.Layout.Numbers
import Peony.Emit.SymbolPlaces
import Peony.Emit.SectionNumbers
import Peony.Emit.RelocatableFile
import Peony.Gc.LiveSet
import Peony.Verification.Range
import Peony.Verification.Preservation
import Peony.Verification.LayoutSoundness
import Peony.Driver.Response
import Peony.Driver.CacheKey
import Peony.Driver.Expand
import Peony.Driver.Fields
import Peony.Driver.VersionGrammar
import Peony.Driver.VersionTokens
import Peony.Driver.VersionReading
import Peony.Emit.Relinks
import Peony.Emit.Loader
import Peony.Layout.GotSlots
import Peony.Emit.ReservedSizes
import Peony.Emit.ComputedRegions
import Peony.Driver.Separation
import Peony.Driver.LinkRuns
