import MipsVM.Console.Boot
import MipsVM.Proofs.Frame.Stretch
import MipsVM.Proofs.Machine.Coherence
import MipsVM.Proofs.Machine.Fork
import MipsVM.Proofs.Machine.Interrupts
import MipsVM.Proofs.Machine.Isolation
import MipsVM.Proofs.Machine.Lifecycle
import MipsVM.Proofs.Machine.Ownership
import MipsVM.Proofs.Machine.Residue
import MipsVM.Sync.SpinLock
import MipsVM.Proofs.Frame.Lending
import MipsVM.Proofs.Frame.HandOver
import MipsVM.Proofs.Frame.Mirror
import MipsVM.Proofs.Tlb.Tags
import MipsVM.Proofs.Frame.HandOut
import MipsVM.Proofs.Machine.Populate
import MipsVM.Proofs.Machine.UserMemory
import MipsVM.Proofs.Frame.Refusal
import MipsVM.Proofs.Frame.Carving
import MipsVM.Proofs.Frame.Orderly
import MipsVM.Proofs.Machine.AddRegion
import MipsVM.Proofs.Machine.Reached
import MipsVM.Proofs.Frame.BootLayout
import MipsVM.Proofs.Space.Regions
import MipsVM.Proofs.Tlb.Fault
import MipsVM.Proofs.Machine.Mapping
import MipsVM.Proofs.Machine.KernelPages
import MipsVM.Proofs.Frame.Numbering
import MipsVM.Proofs.Frame.FirstFrame
import MipsVM.Proofs.Machine.Teardown
import MipsVM.Proofs.Sync.OnceCell
