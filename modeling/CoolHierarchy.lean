import CoolHierarchy.Declaration.Encode
import CoolHierarchy.Main
import CoolHierarchy.Proofs.ConformanceOrder
import CoolHierarchy.Proofs.LinkTables
import CoolHierarchy.Proofs.DeclarationOrder
import CoolHierarchy.Proofs.Conformance
import CoolHierarchy.Proofs.LayoutTable
import CoolHierarchy.Proofs.LayoutQueue
import CoolHierarchy.Proofs.LayoutInheritance
import CoolHierarchy.Proofs.BrokenChains
import CoolHierarchy.Proofs.Extension
import CoolHierarchy.Proofs.Registration
import CoolHierarchy.Proofs.UnrelatedClass
import CoolHierarchy.Proofs.JsonText
import CoolHierarchy.Proofs.DeclarationNotation
import CoolHierarchy.Proofs.DeclarationFaults
import CoolHierarchy.Proofs.MarkedSearch
import CoolHierarchy.Proofs.RootedJoin
import CoolHierarchy.Proofs.CheckReport
import CoolHierarchy.Proofs.FeatureIndependence
import CoolHierarchy.Proofs.RootPaths
import CoolHierarchy.Proofs.JoinOrder
import CoolHierarchy.Proofs.SuperclassChain
import CoolHierarchy.Proofs.Dispatch
import CoolHierarchy.Proofs.AttributeLayout
import CoolHierarchy.Proofs.LocatedErrors
import CoolHierarchy.Proofs.PrintedTree
import CoolHierarchy.Proofs.SourceIndependence
import CoolHierarchy.Proofs.EntryClass
