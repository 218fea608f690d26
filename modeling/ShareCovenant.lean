import ShareCovenant.Main
import ShareCovenant.Proofs.Address
import ShareCovenant.Proofs.Contract.Identity
import ShareCovenant.Proofs.Script.Meaning
import ShareCovenant.Proofs.Spend.Acceptance
import ShareCovenant.Proofs.Spend.Enforcement
import ShareCovenant.Proofs.Spend.Mode
import ShareCovenant.Proofs.Spend.NoPayout
import ShareCovenant.Proofs.Spend.Split
import ShareCovenant.Proofs.Script.Canonical
import ShareCovenant.Proofs.Transaction.Preimage
import ShareCovenant.Proofs.Contract.Accounting
import ShareCovenant.Proofs.Covenant.Cutoff
import ShareCovenant.Proofs.Spend.Size
import ShareCovenant.Proofs.Spend.Limits
import ShareCovenant.Proofs.Script.Composition
import ShareCovenant.Proofs.Contract.Texts
import ShareCovenant.Proofs.Spend.Independence
