import CppTest.MachineProofs
import CppTest.ForestProofs
import CppTest.WquProofs
import CppTest.MemPoolProofs
import CppTest.LinkedTreeProofs
import CppTest.RbTreeProofs
import CppTest.RbTreeBalanceProofs
import CppTest.RbTreeInsertProofs
import CppTest.RbTreeDictProofs
import CppTest.PaxosAcceptorProofs
import CppTest.VotingProofs
import CppTest.PaxosNetworkProofs
import CppTest.PaxosQuorumProofs
import CppTest.PaxosAgreementProofs
import CppTest.BinaryHeapProofs
import CppTest.TrieProofs
import CppTest.BstProofs
import CppTest.BstDictProofs
import CppTest.MemPoolLifeProofs
import CppTest.MmpoolProofs
import CppTest.AdjacencyProofs
import CppTest.GraphProofs
import CppTest.GraphAdjProofs
import CppTest.TstProofs
import CppTest.BinarySearchTreeProofs
import CppTest.LinkedRingProofs
import CppTest.SentinelListProofs
import CppTest.CtiGraphProofs
import CppTest.DigraphProofs
import CppTest.CtiDepthFirstProofs
import CppTest.CtiTopologicalProofs
import CppTest.CtiBreadthFirstProofs
import CppTest.RayProofs
import CppTest.ChessProofs
import CppTest.ChessFindProofs
import CppTest.ScanProofs
import CppTest.GraphInitProofs
import CppTest.GraphBuiltProofs
import CppTest.GraphDfsProofs
import CppTest.GraphReverseProofs
import CppTest.GraphWeightProofs
import CppTest.PrintProofs
import CppTest.GraphCStrProofs
import CppTest.InPlaceProofs
import CppTest.GraphInPlaceProofs
import CppTest.AlgsSortProofs
import CppTest.CtiMergeSortProofs
import CppTest.CtiQuicksortProofs
import CppTest.CtiHeapSortProofs
import CppTest.SortingProofs
import CppTest.IntRbTreeProofs
import CppTest.BinaryHeapBuildProofs
import CppTest.Calc4Proofs
import CppTest.SubarrayProofs
import CppTest.CompressProofs
import CppTest.CtiSearchProofs
import CppTest.JosephusProofs
import CppTest.ExpressionProofs
import CppTest.InfixProofs
import CppTest.StringSearchProofs
import CppTest.ReplaceProofs
import CppTest.ConstructProofs
import CppTest.StaircaseProofs
import CppTest.CutRodProofs
import CppTest.ScheduleProofs
import CppTest.ActivityProofs
import CppTest.DroppingBallsProofs
import CppTest.TriangleProofs
import CppTest.HanoiProofs
import CppTest.RadixTreeProofs
import CppTest.PaxosValueProofs
import CppTest.PaxosConfigProofs
import CppTest.MemPoolArithProofs
import CppTest.MmpoolCursorProofs
import CppTest.RowPoolProofs
import CppTest.TdarrProofs
import CppTest.NodePoolProofs
import CppTest.EchoProofs
import CppTest.EchoSelectProofs
import CppTest.MyKeysProofs
import CppTest.RunsProofs
import CppTest.LinkedListProofs
import CppTest.ListMergeProofs
import CppTest.ListSortProofs
import CppTest.PermitsProofs
import CppTest.ForkServerProofs
import CppTest.ForkLockProofs
import CppTest.ForkReportProofs
import CppTest.SidecarProofs
import CppTest.HexProofs
import CppTest.HexdumpProofs
import CppTest.Bs23TreeProofs
import CppTest.XhsdkServerProofs
import CppTest.RbTreeDrawProofs
import CppTest.KeyIndexedProofs
import CppTest.LsdSortProofs
import CppTest.PaxosProgressProofs
import CppTest.PaxosValidityProofs
import CppTest.PaxosRestProofs
import CppTest.CtiPathProofs
import CppTest.CtiInsertionSortProofs
import CppTest.CtiGcdProofs
