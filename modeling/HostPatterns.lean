import HostPatterns.FileTree
import HostPatterns.Main
import HostPatterns.Proofs.LimitedRoom
import HostPatterns.Proofs.Index
import HostPatterns.Proofs.Walk
import HostPatterns.Proofs.Partition
import HostPatterns.Proofs.Committed
import HostPatterns.Proofs.Resolution
import HostPatterns.Proofs.FileStep
import HostPatterns.Proofs.OrderIndependence
import HostPatterns.Proofs.Neighbours
import HostPatterns.Proofs.LookAlikes
import HostPatterns.Proofs.Narrowing
import HostPatterns.Proofs.Losses
import HostPatterns.Proofs.Mergeable
import HostPatterns.Proofs.RoundTrip
import HostPatterns.Proofs.Recompaction
import HostPatterns.Proofs.Places
import HostPatterns.Proofs.Spellings
import HostPatterns.Proofs.Effects
import HostPatterns.Proofs.Revalidation
import HostPatterns.Proofs.InputKept
import HostPatterns.Proofs.LastWord
import HostPatterns.Proofs.SeedCoverage
import HostPatterns.Proofs.Evidence
import HostPatterns.Proofs.LineByLine
import HostPatterns.Proofs.LongestMatch
import HostPatterns.Proofs.LineOrder
import HostPatterns.Proofs.ShortWildcards
import HostPatterns.Proofs.FirstWins
import HostPatterns.Proofs.HostsGrammar
import HostPatterns.Proofs.OutputOnly
import HostPatterns.Proofs.GreatestShared
import HostPatterns.Proofs.DerivedOutput
import HostPatterns.Proofs.ExactReports
import HostPatterns.Proofs.Stages
import HostPatterns.Proofs.ExactOwners
import HostPatterns.Proofs.AncestorChains
import HostPatterns.Proofs.Relaxation
