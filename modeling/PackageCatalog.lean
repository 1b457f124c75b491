import PackageCatalog.Proofs.Atom.Intervals
import PackageCatalog.Proofs.Catalog.Counting
import PackageCatalog.Proofs.Catalog.Naming
import PackageCatalog.Proofs.Catalog.Records
import PackageCatalog.Proofs.Catalog.Registry
import PackageCatalog.Proofs.Catalog.Selections
import PackageCatalog.Proofs.Config.Expansion
import PackageCatalog.Proofs.Config.Grammar
import PackageCatalog.Proofs.Index.Diagnostics
import PackageCatalog.Proofs.Keywords
import PackageCatalog.Proofs.Metadata.Formats
import PackageCatalog.Proofs.Metadata.Virtual
import PackageCatalog.Proofs.NamesCache.Cuts
import PackageCatalog.Proofs.NamesCache.Verdicts
import PackageCatalog.Proofs.Profile.Architectures
import PackageCatalog.Proofs.Profile.EachOnce
import PackageCatalog.Proofs.Profile.ExpandedFlags
import PackageCatalog.Proofs.Profile.Incremental
import PackageCatalog.Proofs.Profile.Mirrors
import PackageCatalog.Proofs.Profile.RepositoryMasks
import PackageCatalog.Proofs.Version.Grammar
import PackageCatalog.Proofs.Version.Laws
import PackageCatalog.Proofs.Virtuals.Snapshot
