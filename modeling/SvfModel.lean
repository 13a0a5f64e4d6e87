import SvfModel.POCRHybridSolverProofs
import SvfModel.VersionedFlowSensitiveProofs
import SvfModel.WTOProofs
import SvfModel.SteensgaardProofs
import SvfModel.ModRefProofs
import SvfModel.ProgSliceProofs
import SvfModel.PtsFileProofs
import SvfModel.DFStoresProofs
import SvfModel.CFBasicBlockGProofs
import SvfModel.SrcSnkDDAProofs
import SvfModel.PCGProofs
import SvfModel.SVFGReadWriteProofs
import SvfModel.IntervalDivisionProofs
import SvfModel.ConditionalPTProofs
import SvfModel.PointsToMappingProofs
import SvfModel.MemSSAReachingProofs
import SvfModel.GrammarLayoutProofs
import SvfModel.FilledProductionsProofs
import SvfModel.RelationSolverProofs
import SvfModel.FieldExpandProofs
import SvfModel.NodeMergeProofs
import SvfModel.MHPCacheProofs
import SvfModel.SolverStackProofs
import SvfModel.MemPartitionProofs
import SvfModel.PtsChainProofs
import SvfModel.CDGBuilderProofs
import SvfModel.OverlaySccProofs
import SvfModel.GuardProofs
import SvfModel.WorkListLawProofs
import SvfModel.ContextCondProofs
import SvfModel.DeleteRangeProofs
import SvfModel.CFLGraphBuilderProofs
import SvfModel.CFLAliasProofs
import SvfModel.NormalizePointsToProofs
import SvfModel.LastStoreProofs
import SvfModel.StateFrameProofs
import SvfModel.ThreadEdgeOrderProofs
import SvfModel.LockInverseProofs
import SvfModel.BracketProofs
import SvfModel.DistanceMatrixProofs
