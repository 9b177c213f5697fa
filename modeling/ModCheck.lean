import ModCheck.Main
import ModCheck.Proofs.AddressedPlaces
import ModCheck.Proofs.AnnotationLines
import ModCheck.Proofs.BracketRepair
import ModCheck.Proofs.CallVisits
import ModCheck.Proofs.CheckSteps
import ModCheck.Proofs.ClosestNames
import ModCheck.Proofs.ContinuedValues
import ModCheck.Proofs.DisplayedTypes
import ModCheck.Proofs.FilesOnce
import ModCheck.Proofs.FixPreview
import ModCheck.Proofs.Inheritance
import ModCheck.Proofs.LongestValue
import ModCheck.Proofs.NestedChains
import ModCheck.Proofs.NumberSyntax
import ModCheck.Proofs.ParentOrder
import ModCheck.Proofs.ReaderLoops
import ModCheck.Proofs.RepeatedProperties
import ModCheck.Proofs.ReportReading
import ModCheck.Proofs.SegmentDivision
import ModCheck.Workspace
