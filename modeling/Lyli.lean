import Lyli.Base.FoldM
import Lyli.Base.OrdMap
import Lyli.Base.Rounding
import Lyli.Base.RoundedMean
import Lyli.Base.OrdMapShift
import Lyli.Base.StdSort
import Lyli.Base.Cluster
import Lyli.Base.MeanCluster
import Lyli.Base.WeightedMean
import Lyli.Base.Deviation
import Lyli.Base.HighPass
import Lyli.Base.Reach
import Lyli.Base.Locked
import Lyli.Base.Json
import Lyli.Base.JsonSubscript
import Lyli.Base.CString
import Lyli.Base.PyString
import Lyli.Calibration.PointGrid
import Lyli.Calibration.PointGridStep
import Lyli.Calibration.PointGridSweep
import Lyli.Calibration.PointGridPhases
import Lyli.Calibration.PointGridFinal
import Lyli.Calibration.PointGridLinks
import Lyli.Calibration.PointGridFinalized
import Lyli.Calibration.PointGridDefined
import Lyli.Calibration.PointGridRekey
import Lyli.Calibration.PointGridRows
import Lyli.Calibration.PointGridBands
import Lyli.Calibration.PointGridRecover
import Lyli.Calibration.PointGridCopy
import Lyli.Calibration.PointGridTop
import Lyli.Calibration.PointGridShift
import Lyli.Calibration.LensDetector
import Lyli.Calibration.LensRefinement
import Lyli.Calibration.LensAccounting
import Lyli.Calibration.LensFill
import Lyli.Calibration.LensObject
import Lyli.Calibration.LensOrder
import Lyli.Calibration.LensReads
import Lyli.Calibration.LensTrace
import Lyli.Calibration.LensBounds
import Lyli.Calibration.FFTPreprocessor
import Lyli.Calibration.Detect
import Lyli.Calibration.LensArray
import Lyli.Calibration.GridMath
import Lyli.Calibration.LineGridPositions
import Lyli.Calibration.GridMathAverage
import Lyli.Calibration.GridMathMean
import Lyli.Calibration.GridMathMapper
import Lyli.Calibration.GridMathOrder
import Lyli.Calibration.GridMathCommon
import Lyli.Calibration.GridMathClusters
import Lyli.Calibration.MathUtil
import Lyli.Calibration.ArrayCalibration
import Lyli.Calibration.Calibrator
import Lyli.Calibration.CalibratorClusters
import Lyli.Calibration.CalibratorOrder
import Lyli.Calibration.CalibratorInterleaved
import Lyli.Calibration.CalibrateLoop
import Lyli.Calibration.TargetShift
import Lyli.Calibration.Serialization
import Lyli.Calibration.LensTable
import Lyli.Image.LightfieldImage
import Lyli.Image.LightfieldFill
import Lyli.Image.LensArrayTarget
import Lyli.Image.RawImage
import Lyli.Image.Demosaic
import Lyli.Image.RawImageUnpack
import Lyli.Camera
import Lyli.CameraSessions
import Lyli.Filesystem.FileList
import Lyli.Ui.CameraContext
import Lyli.Ui.CameraCalibrator
import Lyli.Ui.CameraForm
import Lyli.Ui.LyliConfig
import Lyli.Pycppjson.JsonParser
import Lyli.Pycppjson.JsonGen
import Lyli.Pycppjson.JsonAccess
import Lyli.Pycppjson.JsonReads
