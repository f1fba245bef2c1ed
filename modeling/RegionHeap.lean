import RegionHeap.Proofs.Client.Exclusivity
import RegionHeap.Proofs.Client.History
import RegionHeap.Proofs.Client.Integrity
import RegionHeap.Proofs.Client.Preservation
import RegionHeap.Proofs.Client.Refusal
import RegionHeap.Proofs.Client.Safety
import RegionHeap.Proofs.Client.Survival
import RegionHeap.Proofs.Client.Validation
import RegionHeap.Proofs.Client.Noninterference
import RegionHeap.Proofs.FreeList.Confined
import RegionHeap.Proofs.Client.Confined
import RegionHeap.Proofs.Client.Tenants
import RegionHeap.Proofs.Heap.Paved
import RegionHeap.Proofs.Client.Fragmentation
import RegionHeap.Proofs.Plan.Vacating
import RegionHeap.Proofs.Plan.FirstFit
import RegionHeap.Proofs.Plan.Refitting
import RegionHeap.Proofs.FreeList.Chase
import RegionHeap.Proofs.Client.Outcomes
import RegionHeap.Proofs.Layout.Offence
import RegionHeap.Proofs.Heap.Printed
import RegionHeap.Proofs.Heap.Toggled
import RegionHeap.Proofs.Client.Fitting
import RegionHeap.Proofs.Client.LowestFit
import RegionHeap.Proofs.Client.Reuse
import RegionHeap.Proofs.Client.Renewal
import RegionHeap.Proofs.FreeList.Represents
import RegionHeap.Proofs.Client.Reports
import RegionHeap.Proofs.Heap.Inspection
import RegionHeap.Proofs.Client.Inspection
