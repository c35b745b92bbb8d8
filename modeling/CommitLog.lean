import CommitLog.GovernorHistory
import CommitLog.VerifiedFloor
import CommitLog.StripStamps
import CommitLog.DigestHistory
import CommitLog.TruncateCrash
import CommitLog.OverlapRecovery
import CommitLog.EpochCacheRuns
import CommitLog.EpochHistory
import CommitLog.IndexSpans
import CommitLog.FaultRuns
import CommitLog.SealedSegments
import CommitLog.TierAdoption
import CommitLog.WatermarkWaits
import CommitLog.BlockCopyLoop
import CommitLog.LatestLookups
import CommitLog.RecoveryWalks
import CommitLog.JoinStage
import CommitLog.Consolidation
import CommitLog.Descriptors
import CommitLog.IndexCache
import CommitLog.RetentionExact
import CommitLog.DamagedPayloads
import CommitLog.StripFrames
import CommitLog.RollAttempts
import CommitLog.BufferedReads
import CommitLog.BlockTables
