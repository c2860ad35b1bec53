import Stencil.Main
import Stencil.Proofs.Build.Current
import Stencil.Proofs.Build.DryRun
import Stencil.Proofs.Build.Reported
import Stencil.Proofs.Build.Resume
import Stencil.Proofs.Build.Snapshot
import Stencil.Proofs.Build.Stopped
import Stencil.Proofs.Document
import Stencil.Proofs.Expansion.Values
import Stencil.Proofs.Plan.Selection
import Stencil.Proofs.Settings.Precedence
import Stencil.Proofs.Tag.Located
import Stencil.Proofs.Template.Filled
import Stencil.Proofs.Tag.Layout
import Stencil.Proofs.Tag.Extent
import Stencil.Proofs.Expansion.Names
import Stencil.Proofs.Template.Remaining
import Stencil.Proofs.Expansion.Limit
import Stencil.Proofs.Usage.Spellings
import Stencil.Proofs.Plan.Loading
import Stencil.Proofs.Inventory.Listing
import Stencil.Proofs.Toml.Overlay
import Stencil.Proofs.Template.WellFormed
import Stencil.Proofs.Plan.Strays
import Stencil.Proofs.Expansion.Unmarked
import Stencil.Proofs.Build.Copied
import Stencil.Proofs.Tag.Record
import Stencil.Proofs.Usage.BulkParts
import Stencil.Proofs.Expansion.Rounds
