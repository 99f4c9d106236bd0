import NtfsPlus.Libntfs.MappingPairsBounds
import NtfsPlus.Libntfs.FsckLcnBitmapPadding
import NtfsPlus.Ntfsck.CheckRunlistBounds
import NtfsPlus.Ntfsck.CheckMftSize
import NtfsPlus.Ntfsck.IndexOrder
import NtfsPlus.Ntfsck.IndexHeaderRepair
import NtfsPlus.Libntfs.LogRestart
import NtfsPlus.Libntfs.MftMirror
import NtfsPlus.Libntfs.MftBitmapSearch
import NtfsPlus.Libntfs.AttrInconsistent
import NtfsPlus.Libntfs.LookupByName
import NtfsPlus.Libntfs.ResidentValueResize
import NtfsPlus.Ntfsck.ApplyBitmap
import NtfsPlus.Libntfs.FsckAllocOracle
import NtfsPlus.Libntfs.Compress
import NtfsPlus.Libntfs.AttrListReads
import NtfsPlus.Libntfs.ExtentInode
import NtfsPlus.Libntfs.AttrInstance
import NtfsPlus.Libntfs.NamesEqual
import NtfsPlus.Ntfsck.RebuildAttrList
import NtfsPlus.Libntfs.IbmModify
import NtfsPlus.Libntfs.IndexWalkDown
import NtfsPlus.Libntfs.RunlistMergeResult
import NtfsPlus.Libntfs.ClusterFreeRange
import NtfsPlus.Libntfs.MappingPairsSize
import NtfsPlus.Libntfs.UnistrSize
import NtfsPlus.Libntfs.EaReads
import NtfsPlus.Libntfs.EaUpdate
import NtfsPlus.Libntfs.ExtendIndexRun
import NtfsPlus.Ntfsck.CheckEa
import NtfsPlus.Ntfsck.VisitEntries
import NtfsPlus.Ntfsck.RebuildSecureSdh
import NtfsPlus.Ntfsclone.Image
import NtfsPlus.Ntfsck.DirtyGuard
import NtfsPlus.Ntfsck.RepairRounds
import NtfsPlus.Ntfsck.SalvageMftRecord
import NtfsPlus.Ntfsck.CheckAttrListType
import NtfsPlus.Ntfswipe.WipeUnused
import NtfsPlus.Ntfsck.CheckMftBitmapSize
import NtfsPlus.Mkntfs.ScatteredClusters
import NtfsPlus.Mkntfs.InsertIndexEntry
import NtfsPlus.Ntfsresize.ReplaceRunlist
import NtfsPlus.Ntfsck.IndexBitmapBounds
import NtfsPlus.Libntfs.RunlistMergeBounds
import NtfsPlus.Libntfs.MaxEmptyBitRange
import NtfsPlus.Libntfs.ClusterHolders
import NtfsPlus.Ntfswipe.WipeIndexAllocation
import NtfsPlus.Libntfs.RunlistPunchHole
