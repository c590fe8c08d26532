import TransitChanges.Network.Edit
import TransitChanges.Ranking
import TransitChanges.Session
import TransitChanges.SampleCity
import TransitChanges.Main
import TransitChanges.Proofs.BitCount
import TransitChanges.Proofs.Chain
import TransitChanges.Proofs.DirectChanges
import TransitChanges.Proofs.Rounds
import TransitChanges.Proofs.LeastDegree
import TransitChanges.Proofs.ChangeStations
import TransitChanges.Proofs.Vias
import TransitChanges.Proofs.Ways
import TransitChanges.Proofs.Expansion
import TransitChanges.Proofs.Asking
import TransitChanges.Proofs.Enquiry
import TransitChanges.Proofs.NetworkRoutes
import TransitChanges.Proofs.Consistency
import TransitChanges.Proofs.LiveChains
import TransitChanges.Proofs.Places
import TransitChanges.Proofs.FewestOfPairs
import TransitChanges.Proofs.Restoring
import TransitChanges.Proofs.SameVersion
import TransitChanges.Proofs.JsonText
import TransitChanges.Proofs.StoredRecords
import TransitChanges.Proofs.CacheDirectory
import TransitChanges.Proofs.CacheOperations
import TransitChanges.Proofs.KeptTables
import TransitChanges.Proofs.SessionTables
import TransitChanges.Proofs.SameTables
import TransitChanges.Proofs.Visits
import TransitChanges.Proofs.Interleaving
import TransitChanges.Proofs.Comparing
import TransitChanges.Proofs.WiderQueries
import TransitChanges.Proofs.MoreClosures
import TransitChanges.Proofs.Reordering
import TransitChanges.Proofs.SameWays
import TransitChanges.Proofs.RestoredTables
import TransitChanges.Proofs.CommonDates
import TransitChanges.Proofs.DepthOfWays
import TransitChanges.Proofs.Decompositions
import TransitChanges.Proofs.Itineraries
import TransitChanges.Proofs.NumberingOrder
import TransitChanges.Proofs.DegreeRecords
import TransitChanges.Proofs.ViaRecords
import TransitChanges.Proofs.ConnectedPairs
import TransitChanges.Proofs.FirstStations
import TransitChanges.Proofs.AskedOnce
import TransitChanges.Proofs.RankedItems
import TransitChanges.Proofs.AskedStations
import TransitChanges.Proofs.WindowsOfSpans
import TransitChanges.Proofs.RecordedCalls
import TransitChanges.Proofs.FoundRoutes
import TransitChanges.Proofs.FolderTrees
import TransitChanges.Proofs.DirectoryChanges
import TransitChanges.Proofs.CacheRuns
import TransitChanges.Proofs.CivilDays
import TransitChanges.Proofs.WalkedDates
import TransitChanges.Proofs.NetworkOfEdits
import TransitChanges.Proofs.BitSets
import TransitChanges.Proofs.BitOperations
