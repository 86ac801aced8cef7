import Ascribe.Declaration.Render
import Ascribe.Module
import Ascribe.Ty.Quote
import Ascribe.Proofs.Substitution
import Ascribe.Proofs.Clashes
import Ascribe.Proofs.Unification
import Ascribe.Proofs.UnificationErrors
import Ascribe.Proofs.Solving
import Ascribe.Proofs.Typing
import Ascribe.Proofs.Generation
import Ascribe.Proofs.Reach
import Ascribe.Proofs.Closed
import Ascribe.Proofs.Soundness
import Ascribe.Proofs.Principality
import Ascribe.Proofs.Renaming
import Ascribe.Proofs.Signatures
import Ascribe.Proofs.Completeness
import Ascribe.Proofs.Hygiene
import Ascribe.Proofs.Insertion
import Ascribe.Proofs.BodyOrder
import Ascribe.Proofs.Checking
import Ascribe.Proofs.Tables
import Ascribe.Proofs.QualifiedNames
import Ascribe.Proofs.DeferredMembers
import Ascribe.Proofs.Places
import Ascribe.Proofs.ParameterNames
import Ascribe.Proofs.StepBound
import Ascribe.Proofs.Policies
import Ascribe.Proofs.ResultConstraints
import Ascribe.Proofs.Calls
import Ascribe.Proofs.Annotations
import Ascribe.Proofs.FreeNames
import Ascribe.Proofs.ReadBack
import Ascribe.Proofs.Printing
import Ascribe.Proofs.TypePaths
import Ascribe.Proofs.RunningSubst
import Ascribe.Proofs.UnificationCalls
import Ascribe.Proofs.ScopeStack
